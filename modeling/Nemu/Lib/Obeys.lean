/-
# A command that obeys another

Two commands on different states, of which the second says what the first one
is to do. `Obeys R c d` says that from states related by `R` the first ends
as the second does, in related states. Where the second aborts, nothing is said
of the first: a command states where it promises nothing by aborting there.
`Obeys` is a class, so that instances put it together along the structure of
two commands that differ only in what they do to the states.

Key definitions: `Abides`, `Obeys`, `ReadsAs`, `WritesAs`.
Key theorems: `Abides.ok`, `Abides.bind`, `Obeys.bind`, `Obeys.access`.
-/
import Nemu.Lib.Cmd

namespace Cmd

variable {σ τ α β : Type}

/-- The first outcome is the second, in related states, or the second is an abort. -/
def Abides (R : σ → τ → Prop) : Outcome σ α → Outcome τ α → Prop
  | _, .abort _ => True
  | .ok a s, .ok b t => a = b ∧ R s t
  | .jump s, .jump t => R s t
  | .outOfFuel, .outOfFuel => True
  | _, _ => False

section Abides

variable {R : σ → τ → Prop} {o : Outcome σ α} {o' : Outcome τ α}

/-- The first returns where the second does. -/
theorem Abides.ok {b : α} {t : τ} (h : Abides R o (.ok b t)) : ∃ s, o = .ok b s ∧ R s t := by
  cases o with
  | ok a s => exact ⟨s, by rw [h.1], h.2⟩
  | _ => exact h.elim

/-- And jumps where it jumps. -/
theorem Abides.jump {t : τ} (h : Abides R o (.jump t)) : ∃ s, o = .jump s ∧ R s t := by
  cases o with
  | jump s => exact ⟨s, rfl, h⟩
  | _ => exact h.elim

theorem Abides.outOfFuel (h : Abides R o .outOfFuel) : o = .outOfFuel := by
  cases o with
  | outOfFuel => rfl
  | _ => exact h.elim

theorem abides_abort (R : σ → τ → Prop) (o : Outcome σ α) (e : Failure) : Abides R o (.abort e) := by
  cases o <;> trivial

/-- What follows may use how the second run went. -/
theorem Abides.bind {c : Cmd σ α} {d : Cmd τ α} {k : α → Cmd σ β} {l : α → Cmd τ β} {s : σ} {t : τ}
    (h : Abides R (c s) (d t)) (hk : ∀ a s' t', d t = .ok a t' → R s' t' → Abides R (k a s') (l a t')) :
    Abides R ((c >>= k) s) ((d >>= l) t) := by
  rw [bind_run, bind_run]
  cases hd : d t with
  | ok b t' =>
    rw [hd] at h
    obtain ⟨s', hs', h'⟩ := h.ok
    rw [hs']
    exact hk b s' t' hd h'
  | jump t' =>
    rw [hd] at h
    obtain ⟨s', hs', h'⟩ := h.jump
    rw [hs']
    exact h'
  | abort e => exact abides_abort R _ e
  | outOfFuel =>
    rw [hd] at h
    rw [h.outOfFuel]
    trivial

end Abides

/-- The first command ends as the second does, unless the second aborts. -/
class Obeys (R : σ → τ → Prop) (c : Cmd σ α) (d : Cmd τ α) : Prop where
  abides : ∀ s t, R s t → Abides R (c s) (d t)

/-- The two values are the same in related states. -/
class ReadsAs (R : σ → τ → Prop) (f : σ → α) (g : τ → α) : Prop where
  eq : ∀ s t, R s t → f s = g t

/-- The two changes keep states related. -/
class WritesAs (R : σ → τ → Prop) (f : σ → σ) (g : τ → τ) : Prop where
  related : ∀ s t, R s t → R (f s) (g t)

section Obeys

variable {R : σ → τ → Prop} {c c' : Cmd σ α} {d d' : Cmd τ α}

instance Obeys.pure (a : α) : Obeys R (pure a : Cmd σ α) (pure a : Cmd τ α) := ⟨fun _ _ h => ⟨rfl, h⟩⟩

instance Obeys.bind {k : α → Cmd σ β} {l : α → Cmd τ β} [hc : Obeys R c d] [hk : ∀ a, Obeys R (k a) (l a)] :
    Obeys R (c >>= k) (d >>= l) :=
  ⟨fun s t h => (hc.abides s t h).bind fun a s' t' _ h' => (hk a).abides s' t' h'⟩

instance Obeys.ite {p : Prop} [Decidable p] [hc : Obeys R c d] [hc' : Obeys R c' d'] :
    Obeys R (if p then c else c') (if p then d else d') := by
  split
  · exact hc
  · exact hc'

instance Obeys.read (f : σ → α) (g : τ → α) [hf : ReadsAs R f g] : Obeys R (read f) (read g) :=
  ⟨fun s t h => ⟨hf.eq s t h, h⟩⟩

instance Obeys.write (f : σ → σ) (g : τ → τ) [hf : WritesAs R f g] : Obeys R (write f) (write g) :=
  ⟨fun s t h => ⟨rfl, hf.related s t h⟩⟩

/-- An access, where the second one succeeds. -/
theorem Obeys.access {f : σ → Option (α × σ)} {g : τ → Option (α × τ)}
    (h : ∀ s t a t', R s t → g t = some (a, t') → ∃ s', f s = some (a, s') ∧ R s' t') :
    Obeys R (access f) (access g) := by
  refine ⟨fun s t hst => ?_⟩
  unfold Cmd.access
  cases hg : g t with
  | none => exact abides_abort R _ .assertion
  | some r =>
    obtain ⟨s', hs', h'⟩ := h s t r.1 r.2 hst hg
    rw [hs']
    exact ⟨rfl, h'⟩

instance Obeys.fail (e : Failure) : Obeys R (fail e : Cmd σ α) (fail e : Cmd τ α) := ⟨fun _ _ _ => trivial⟩

instance Obeys.abort : Obeys R (abort : Cmd σ α) (abort : Cmd τ α) := ⟨fun _ _ _ => trivial⟩

instance Obeys.jump : Obeys R (jump : Cmd σ α) (jump : Cmd τ α) := ⟨fun _ _ h => h⟩

instance Obeys.outOfFuel : Obeys R (outOfFuel : Cmd σ α) (outOfFuel : Cmd τ α) := ⟨fun _ _ _ => trivial⟩

instance Obeys.upto {body : ℕ → Cmd σ Unit} {body' : ℕ → Cmd τ Unit} [h : ∀ i, Obeys R (body i) (body' i)] :
    ∀ n, Obeys R (upto body n) (upto body' n)
  | 0 => Obeys.pure ()
  | n + 1 => @Obeys.bind _ _ _ _ _ _ _ _ _ (Obeys.upto n) fun _ => h n

end Obeys

end Cmd
