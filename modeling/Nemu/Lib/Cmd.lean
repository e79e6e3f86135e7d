/-
# Commands over a state, with jumps and failures

A command reads and changes a state and ends with a result, with a jump to an
outer handler (`longjmp`), with an abort (a failed assertion), or by running
out of the steps it was given. Assertions on the length of an access are told
apart from the others. `Keeps I c E` says that `c` keeps the invariant `I` and
aborts only as `E` allows, `Syncs R c` that two runs of `c` from states related
by `R` end alike, in related states. Both are classes, so that instances put
them together along the structure of a command.

Key definitions: `Failure`, `Outcome`, `Cmd`, `Ends`, `Keeps`, `Syncs`.
Key theorems: `Ends.bind`, `Keeps.bind`, `Alike.bind`.
-/
import Mathlib.Data.Nat.Notation
import Mathlib.Tactic.Common

/-- Which assertion failed: one on the length of an access, or another. -/
inductive Failure where
  | length | assertion
  deriving DecidableEq

/-- How a command ends. -/
inductive Outcome (σ α : Type) where
  | ok (a : α) (s : σ)
  | jump (s : σ)
  | abort (e : Failure)
  | outOfFuel

/-- A command over the states `σ`. -/
def Cmd (σ α : Type) : Type := σ → Outcome σ α

namespace Cmd

variable {σ α β : Type}

/-- What follows a command. -/
def andThen (o : Outcome σ α) (k : α → Cmd σ β) : Outcome σ β :=
  match o with
  | .ok a s => k a s
  | .jump s => .jump s
  | .abort e => .abort e
  | .outOfFuel => .outOfFuel

instance : Monad (Cmd σ) where
  pure a := fun s => .ok a s
  bind c k := fun s => andThen (c s) k

/-- The value of `f` on the state. -/
def read (f : σ → α) : Cmd σ α := fun s => .ok (f s) s

/-- The state becomes `g` of it. -/
def write (g : σ → σ) : Cmd σ Unit := fun s => .ok () (g s)

/-- An access to the state that may fail. -/
def access (f : σ → Option (α × σ)) : Cmd σ α := fun s =>
  match f s with
  | some (a, s) => .ok a s
  | none => .abort .assertion

/-- A failed assertion. -/
def fail (e : Failure) : Cmd σ α := fun _ => .abort e

/-- A failed assertion that is not about a length. -/
def abort : Cmd σ α := fail .assertion

/-- `longjmp`. -/
def jump : Cmd σ α := fun s => .jump s

/-- The steps are used up. -/
def outOfFuel : Cmd σ α := fun _ => .outOfFuel

open Classical in
/-- The command, after the assertion that the state meets `p`. -/
noncomputable def asserting (p : σ → Prop) (c : Cmd σ α) : Cmd σ α := fun s =>
  if p s then c s else .abort .assertion

/-- `setjmp`: the command is over when it jumps. -/
def setjmp (c : Cmd σ α) : Cmd σ Unit := fun s =>
  match c s with
  | .ok _ s' => .ok () s'
  | .jump s' => .ok () s'
  | .abort e => .abort e
  | .outOfFuel => .outOfFuel

/-- The state in which a command returned, or else `s`. -/
def stateD (s : σ) : Outcome σ α → σ
  | .ok _ s' => s'
  | _ => s

/-- The result of a command that returned. -/
def value : Outcome σ α → Option α
  | .ok a _ => some a
  | _ => none

/-- The state that a command jumped with. -/
def jumped : Outcome σ α → Option σ
  | .jump s => some s
  | _ => none

/-- The result and the state of a command that returned. -/
def result : Outcome σ α → Option (α × σ)
  | .ok a s => some (a, s)
  | _ => none

/-- `body 0`, …, `body (n - 1)` in order. -/
def upto (body : ℕ → Cmd σ Unit) : ℕ → Cmd σ Unit
  | 0 => pure ()
  | n + 1 => do upto body n; body n

/-! ### One run -/

section Run

variable {s : σ} {c : Cmd σ α} {k : α → Cmd σ β}

@[simp] theorem pure_run (a : α) (s : σ) : (pure a : Cmd σ α) s = .ok a s := rfl

@[simp] theorem read_run (f : σ → α) (s : σ) : read f s = .ok (f s) s := rfl

@[simp] theorem write_run (g : σ → σ) (s : σ) : write g s = .ok () (g s) := rfl

@[simp] theorem fail_run (e : Failure) (s : σ) : (fail e : Cmd σ α) s = .abort e := rfl

@[simp] theorem abort_run (s : σ) : (abort : Cmd σ α) s = .abort .assertion := rfl

@[simp] theorem jump_run (s : σ) : (jump : Cmd σ α) s = .jump s := rfl

theorem bind_run (c : Cmd σ α) (k : α → Cmd σ β) (s : σ) : (c >>= k) s = andThen (c s) k := rfl

theorem bind_ok {a : α} {s' : σ} (h : c s = .ok a s') : (c >>= k) s = k a s' := by
  rw [bind_run, h]
  rfl

theorem ok_stateD {o : Outcome σ α} {a : α} (h : value o = some a) (s : σ) : o = .ok a (stateD s o) := by
  cases o with
  | ok b s' => rw [Option.some.inj h]; rfl
  | jump s' => exact nomatch h
  | abort e => exact nomatch h
  | outOfFuel => exact nomatch h

theorem exists_jump {o : Outcome σ α} (h : (jumped o).isSome = true) : ∃ s, o = .jump s := by
  cases o with
  | jump s => exact ⟨s, rfl⟩
  | ok a s => exact absurd h Bool.false_ne_true
  | abort e => exact absurd h Bool.false_ne_true
  | outOfFuel => exact absurd h Bool.false_ne_true

theorem jump_getD {o : Outcome σ α} (h : (jumped o).isSome = true) (s : σ) :
    o = .jump ((jumped o).getD s) := by
  obtain ⟨s', rfl⟩ := exists_jump h
  rfl

/-- What follows returns only after a return. -/
theorem andThen_eq_ok {o : Outcome σ α} {b : β} {s'' : σ} (h : andThen o k = .ok b s'') :
    ∃ a s', o = .ok a s' ∧ k a s' = .ok b s'' := by
  cases o with
  | ok a s' => exact ⟨a, s', rfl, h⟩
  | jump s' => exact nomatch h
  | abort e => exact nomatch h
  | outOfFuel => exact nomatch h

/-- A sequence that returns did so at each of its steps. -/
theorem bind_eq_ok {b : β} {s'' : σ} (h : (c >>= k) s = .ok b s'') :
    ∃ a s', c s = .ok a s' ∧ k a s' = .ok b s'' := andThen_eq_ok h

/-- A sequence that jumps does so at its first step, or at what follows. -/
theorem bind_eq_jump {s'' : σ} (h : (c >>= k) s = .jump s'') :
    c s = .jump s'' ∨ ∃ a s', c s = .ok a s' ∧ k a s' = .jump s'' := by
  rw [bind_run] at h
  cases hc : c s with
  | ok a s' => exact .inr ⟨a, s', rfl, by rw [← h, hc]; rfl⟩
  | jump s' =>
    rw [hc] at h
    injection h with h
    exact .inl (by rw [h])
  | abort e => rw [hc] at h; exact nomatch h
  | outOfFuel => rw [hc] at h; exact nomatch h

/-- A sequence that aborts does so at its first step, or at what follows. -/
theorem bind_eq_abort {e : Failure} : (c >>= k) s = .abort e ↔
    c s = .abort e ∨ ∃ a s', c s = .ok a s' ∧ k a s' = .abort e := by
  rw [bind_run]
  constructor
  · intro h
    cases hc : c s with
    | ok a s' => exact .inr ⟨a, s', rfl, by rw [← h, hc]; rfl⟩
    | jump s' => rw [hc] at h; exact nomatch h
    | abort e' =>
      rw [hc] at h
      injection h with h
      exact .inl (by rw [h])
    | outOfFuel => rw [hc] at h; exact nomatch h
  · intro h
    rcases h with h | ⟨a, s', h, hk⟩
    · rw [h]
      rfl
    · rw [h]
      exact hk

theorem result_bind : result ((c >>= k) s) = (result (c s)).bind fun r => result (k r.1 r.2) := by
  rw [bind_run]
  cases c s <;> rfl

theorem eq_ok_of_result {o : Outcome σ α} {a : α} (h : result o = some (a, s)) : o = .ok a s := by
  cases o with
  | ok b s' =>
    obtain ⟨rfl, rfl⟩ := Prod.mk.inj (Option.some.inj h)
    rfl
  | _ => exact nomatch h

theorem result_access (f : σ → Option (α × σ)) : result (access f s) = f s := by
  unfold access
  cases f s <;> rfl

@[simp] theorem pure_bind_run (a : α) (k : α → Cmd σ β) (s : σ) :
    ((pure a : Cmd σ α) >>= k) s = k a s := rfl

@[simp] theorem read_bind_run (f : σ → α) (k : α → Cmd σ β) (s : σ) :
    (read f >>= k) s = k (f s) s := rfl

@[simp] theorem write_bind_run (g : σ → σ) (k : Unit → Cmd σ β) (s : σ) :
    (write g >>= k) s = k () (g s) := rfl

theorem access_ne_jump {f : σ → Option (α × σ)} {s' : σ} : access f s ≠ .jump s' := by
  unfold access
  cases f s <;> exact nofun

theorem access_ne_length {f : σ → Option (α × σ)} : access f s ≠ .abort .length := by
  unfold access
  cases f s <;> exact nofun

theorem asserting_pos {p : σ → Prop} (h : p s) : asserting p c s = c s := if_pos h

theorem asserting_neg {p : σ → Prop} (h : ¬ p s) : asserting p c s = .abort .assertion := if_neg h

end Run

@[simp] theorem bind_assoc_cmd {γ : Type} (c : Cmd σ α) (k : α → Cmd σ β) (l : β → Cmd σ γ) :
    (c >>= k) >>= l = c >>= fun a => k a >>= l := by
  funext s
  simp only [bind_run]
  cases c s <;> rfl

@[simp] theorem pure_bind_cmd (a : α) (k : α → Cmd σ β) : (pure a : Cmd σ α) >>= k = k a := rfl

theorem bind_pure_cmd (c : Cmd σ α) : (c >>= fun a => pure a) = c := by
  funext s
  rw [bind_run]
  cases c s <;> rfl

/-! ### What holds when a command ends -/

/-- The outcome is good: `Q` of a result, `J` of a jump, `E` of an abort. -/
def Ends (Q : α → σ → Prop) (J : σ → Prop) (o : Outcome σ α)
    (E : Failure → Prop := fun _ => True) : Prop :=
  match o with
  | .ok a s => Q a s
  | .jump s => J s
  | .abort e => E e
  | .outOfFuel => True

section Ends

variable {E : Failure → Prop}

theorem Ends.mono {Q Q' : α → σ → Prop} {J J' : σ → Prop} {o : Outcome σ α} (h : Ends Q J o E)
    (hQ : ∀ a s, Q a s → Q' a s) (hJ : ∀ s, J s → J' s) : Ends Q' J' o E := by
  cases o with
  | ok a s => exact hQ a s h
  | jump s => exact hJ s h
  | abort e => exact h
  | outOfFuel => trivial

theorem Ends.and {Q Q' : α → σ → Prop} {J J' : σ → Prop} {o : Outcome σ α} (h : Ends Q J o E)
    (h' : Ends Q' J' o) : Ends (fun a s => Q a s ∧ Q' a s) (fun s => J s ∧ J' s) o E := by
  cases o with
  | ok a s => exact ⟨h, h'⟩
  | jump s => exact ⟨h, h'⟩
  | abort e => exact h
  | outOfFuel => trivial

/-- What is said of the result is needed unless `p`. -/
theorem Ends.or {p : Prop} {Q : α → σ → Prop} {o : Outcome σ α}
    (h : ¬ p → Ends Q (fun _ => True) o) : Ends (fun a s => p ∨ Q a s) (fun _ => True) o := by
  by_cases hp : p
  · cases o with
    | ok a s => exact .inl hp
    | jump s => trivial
    | abort e => trivial
    | outOfFuel => trivial
  · exact (h hp).mono (fun _ _ h => .inr h) fun _ h => h

theorem Ends.bind {Q : α → σ → Prop} {Q' : β → σ → Prop} {J : σ → Prop} {c : Cmd σ α}
    {k : α → Cmd σ β} {s : σ} (h : Ends Q J (c s) E) (hk : ∀ a s, Q a s → Ends Q' J (k a s) E) :
    Ends Q' J ((c >>= k) s) E := by
  rw [bind_run]
  cases hc : c s with
  | ok a s' => rw [hc] at h; exact hk a s' h
  | jump s' => rw [hc] at h; exact h
  | abort e => rw [hc] at h; exact h
  | outOfFuel => trivial

/-- The command returned with `Q`, or aborted as `E` allows: it did not jump, and
had enough steps. -/
def Returns (Q : α → σ → Prop) (o : Outcome σ α) (E : Failure → Prop := fun _ => True) : Prop :=
  match o with
  | .ok a s => Q a s
  | .abort e => E e
  | .jump _ | .outOfFuel => False

theorem Returns.mono {Q Q' : α → σ → Prop} {o : Outcome σ α} (h : Returns Q o E)
    (hQ : ∀ a s, Q a s → Q' a s) : Returns Q' o E := by
  cases o with
  | ok a s => exact hQ a s h
  | abort e => exact h
  | jump s => exact h
  | outOfFuel => exact h

theorem Returns.bind {Q : α → σ → Prop} {Q' : β → σ → Prop} {c : Cmd σ α} {k : α → Cmd σ β} {s : σ}
    (h : Returns Q (c s) E) (hk : ∀ a s, Q a s → Returns Q' (k a s) E) : Returns Q' ((c >>= k) s) E := by
  rw [bind_run]
  cases hc : c s with
  | ok a s' => rw [hc] at h; exact hk a s' h
  | abort e => rw [hc] at h; exact h
  | jump s' => rw [hc] at h; exact h
  | outOfFuel => rw [hc] at h; exact h

theorem Returns.setjmp {Q : σ → Prop} {c : Cmd σ Unit} {s : σ} (h : Returns (fun _ => Q) (c s) E) :
    Returns (fun _ => Q) (setjmp (c >>= fun _ => (jump : Cmd σ β)) s) E := by
  unfold Cmd.setjmp
  rw [bind_run]
  cases hc : c s with
  | ok a s' => rw [hc] at h; exact h
  | abort e => rw [hc] at h; exact h
  | jump s' => rw [hc] at h; exact h.elim
  | outOfFuel => rw [hc] at h; exact h.elim

/-- Where nothing fails, it returned. -/
theorem Returns.exists_ok {Q : α → σ → Prop} {o : Outcome σ α} (h : Returns Q o fun _ => False) :
    ∃ a s, o = .ok a s ∧ Q a s := by
  cases o with
  | ok a s => exact ⟨a, s, rfl, h⟩
  | abort e => exact h.elim
  | jump s => exact h.elim
  | outOfFuel => exact h.elim

end Ends

/-! ### Invariants -/

/-- The command keeps the invariant, whether it returns or jumps, and aborts only
as `E` allows. -/
class Keeps (I : σ → Prop) (c : Cmd σ α) (E : Failure → Prop := fun _ => True) : Prop where
  ends : ∀ s, I s → Ends (fun _ => I) I (c s) E

/-- The change keeps the invariant. -/
class Kept (I : σ → Prop) (g : σ → σ) : Prop where
  kept : ∀ s, I s → I (g s)

/-- Two invariants together. -/
def Both (I J : σ → Prop) (s : σ) : Prop := I s ∧ J s

/-- This assertion may fail. -/
class Allows (E : Failure → Prop) (e : Failure) : Prop where
  allowed : E e

instance (e : Failure) : Allows (fun _ => True) e := ⟨trivial⟩

instance : Allows (· ≠ .length) .assertion := ⟨by decide⟩

section Keeps

variable {I J : σ → Prop} {E : Failure → Prop} {c d : Cmd σ α} {k : α → Cmd σ β}

instance Keeps.pure (a : α) : Keeps I (pure a) E := ⟨fun _ h => h⟩

instance Keeps.bind [hc : Keeps I c E] [hk : ∀ a, Keeps I (k a) E] : Keeps I (c >>= k) E :=
  ⟨fun s h => (hc.ends s h).bind fun a s' hs => (hk a).ends s' hs⟩

instance Keeps.ite {p : Prop} [Decidable p] [hc : Keeps I c E] [hd : Keeps I d E] :
    Keeps I (if p then c else d) E := by
  split
  · exact hc
  · exact hd

instance Keeps.dite {p : Prop} [Decidable p] {c : p → Cmd σ α} {d : ¬ p → Cmd σ α}
    [hc : ∀ h, Keeps I (c h) E] [hd : ∀ h, Keeps I (d h) E] :
    Keeps I (if h : p then c h else d h) E := by
  split
  · exact hc _
  · exact hd _

instance Keeps.read (f : σ → α) : Keeps I (read f) E := ⟨fun _ h => h⟩

instance Keeps.write (g : σ → σ) [hg : Kept I g] : Keeps I (write g) E := ⟨hg.kept⟩

instance Keeps.fail (e : Failure) [h : Allows E e] : Keeps I (fail e : Cmd σ α) E :=
  ⟨fun _ _ => h.allowed⟩

instance Keeps.abort [h : Allows E .assertion] : Keeps I (abort : Cmd σ α) E :=
  ⟨fun _ _ => h.allowed⟩

instance Keeps.jump : Keeps I (jump : Cmd σ α) E := ⟨fun _ h => h⟩

instance Keeps.outOfFuel : Keeps I (outOfFuel : Cmd σ α) E := ⟨fun _ _ => trivial⟩

instance Keeps.upto {body : ℕ → Cmd σ Unit} [h : ∀ i, Keeps I (body i) E] :
    ∀ n, Keeps I (upto body n) E
  | 0 => Keeps.pure ()
  | n + 1 => @Keeps.bind _ _ _ _ _ _ _ (Keeps.upto n) fun _ => h n

/-- Nothing is asked of the state or of a failure. -/
instance Keeps.true (c : Cmd σ α) : Keeps (fun _ => True) c :=
  ⟨fun s _ => by cases c s <;> trivial⟩

instance Kept.true (g : σ → σ) : Kept (fun _ => True) g := ⟨fun _ _ => trivial⟩

/-- A command that returns keeps its invariants. -/
theorem Returns.and_keeps [h : Keeps I c] {Q : α → σ → Prop} {s : σ} (hc : Returns Q (c s) E) (hs : I s) :
    Returns (fun a s => Q a s ∧ I s) (c s) E := by
  have hk := h.ends s hs
  cases hrun : c s with
  | ok a s' =>
    rw [hrun] at hc hk
    exact ⟨hc, hk⟩
  | abort e =>
    rw [hrun] at hc
    exact hc
  | jump s' =>
    rw [hrun] at hc
    exact hc
  | outOfFuel =>
    rw [hrun] at hc
    exact hc

/-- What holds of a result. -/
theorem Keeps.post [h : Keeps I c] {s : σ} (hs : I s) :
    Ends (fun _ => I) (fun _ => True) (c s) :=
  (h.ends s hs).mono (fun _ _ h => h) fun _ _ => trivial

/-- The invariant holds after a run. -/
theorem Keeps.ok [h : Keeps I c] {a : α} {s s' : σ} (hr : c s = .ok a s') (hs : I s) : I s' := by
  have hends := h.ends s hs
  rw [hr] at hends
  exact hends

theorem Keeps.both (hI : Keeps I c E) (hJ : Keeps J c) : Keeps (Both I J) c E :=
  ⟨fun s h => (hI.ends s h.1).and (hJ.ends s h.2)⟩

theorem Kept.both {g : σ → σ} (hI : Kept I g) (hJ : Kept J g) : Kept (Both I J) g :=
  ⟨fun s h => ⟨hI.kept s h.1, hJ.kept s h.2⟩⟩

end Keeps

/-! ### Assertions on a length -/

section Length

variable {o : Outcome σ α} {c : Cmd σ α} {k : α → Cmd σ β} {s : σ}

theorem ends_ne_length : Ends (fun _ _ => True) (fun _ => True) o (· ≠ .length) ↔ o ≠ .abort .length := by
  cases o with
  | ok a s => exact ⟨fun _ => nofun, fun _ => trivial⟩
  | jump s => exact ⟨fun _ => nofun, fun _ => trivial⟩
  | abort e => exact ⟨fun h h' => h (by injection h'), fun h he => h (by rw [he])⟩
  | outOfFuel => exact ⟨fun _ => nofun, fun _ => trivial⟩

/-- The command fails no assertion on a length. -/
theorem Keeps.ne_length [h : Keeps (fun _ => True) c (· ≠ .length)] (s : σ) : c s ≠ .abort .length :=
  ends_ne_length.mp (h.ends s trivial)

/-- What follows such a command is what fails one. -/
theorem bind_length_iff [Keeps (fun _ => True) c (· ≠ .length)] : (c >>= k) s = .abort .length ↔
    ∃ a s', c s = .ok a s' ∧ k a s' = .abort .length := by
  rw [bind_eq_abort]
  exact or_iff_right (Keeps.ne_length s)

end Length

/-! ### Commands that do not jump -/

/-- The command does not jump. -/
class Straight (c : Cmd σ α) : Prop where
  ends : ∀ s, Ends (fun _ _ => True) (fun _ => False) (c s)

section Straight

variable {I : σ → Prop} {c d : Cmd σ α} {k : α → Cmd σ β}

instance Straight.pure (a : α) : Straight (pure a : Cmd σ α) := ⟨fun _ => trivial⟩

instance Straight.bind [hc : Straight c] [hk : ∀ a, Straight (k a)] : Straight (c >>= k) :=
  ⟨fun s => (hc.ends s).bind fun a s' _ => (hk a).ends s'⟩

instance Straight.ite {p : Prop} [Decidable p] [hc : Straight c] [hd : Straight d] :
    Straight (if p then c else d) := by
  split
  · exact hc
  · exact hd

instance Straight.read (f : σ → α) : Straight (read f) := ⟨fun _ => trivial⟩

instance Straight.write (g : σ → σ) : Straight (write g) := ⟨fun _ => trivial⟩

instance Straight.access (f : σ → Option (α × σ)) : Straight (access f) := by
  refine ⟨fun s => ?_⟩
  unfold Cmd.access
  cases f s <;> trivial

instance Straight.fail (e : Failure) : Straight (fail e : Cmd σ α) := ⟨fun _ => trivial⟩

instance Straight.abort : Straight (abort : Cmd σ α) := ⟨fun _ => trivial⟩

instance Straight.outOfFuel : Straight (outOfFuel : Cmd σ α) := ⟨fun _ => trivial⟩

instance Straight.upto {body : ℕ → Cmd σ Unit} [h : ∀ i, Straight (body i)] :
    ∀ n, Straight (upto body n)
  | 0 => Straight.pure ()
  | n + 1 => @Straight.bind _ _ _ _ _ (Straight.upto n) fun _ => h n

theorem Straight.ne_jump [hs : Straight c] {s s' : σ} : c s ≠ .jump s' := by
  intro h
  have hend := hs.ends s
  rw [h] at hend
  exact hend

/-- What a command keeps holds of its result, and there is no jump to look at. -/
theorem Straight.keeps [hs : Straight c] [hI : Keeps I c] {J : σ → Prop} {s : σ} (h : I s) :
    Ends (fun _ => I) J (c s) :=
  ((hI.ends s h).and (hs.ends s)).mono (fun _ _ h => h.1) fun _ h => h.2.elim

end Straight

/-! ### Two runs -/

/-- Two outcomes are alike: the same result or none, in related states. -/
def Alike (R : σ → σ → Prop) : Outcome σ α → Outcome σ α → Prop
  | .ok a s, .ok b t => a = b ∧ R s t
  | .jump s, .jump t => R s t
  | .abort e, .abort e' => e = e'
  | .outOfFuel, .outOfFuel => True
  | _, _ => False

theorem Alike.mono {R R' : σ → σ → Prop} {o o' : Outcome σ α} (h : Alike R o o')
    (hR : ∀ s t, R s t → R' s t) : Alike R' o o' := by
  cases o <;> cases o' <;> first | exact h | exact hR _ _ h | exact ⟨h.1, hR _ _ h.2⟩

/-- What follows may use how the first run went. -/
theorem Alike.bind_of_run {R R' : σ → σ → Prop} {c d : Cmd σ α} {k l : α → Cmd σ β} {s t : σ}
    (h : Alike R (c s) (d t)) (hR : ∀ s t, R s t → R' s t)
    (hk : ∀ a s' t', c s = .ok a s' → R s' t' → Alike R' (k a s') (l a t')) :
    Alike R' ((c >>= k) s) ((d >>= l) t) := by
  rw [bind_run, bind_run]
  cases hc : c s <;> cases hd : d t <;> rw [hc, hd] at h <;> try exact h.elim
  · obtain ⟨rfl, h⟩ := h
    exact hk _ _ _ hc h
  · exact hR _ _ h
  · exact h
  · trivial

/-- Two outcomes that are like a third one are alike. -/
theorem Alike.trans_left {R R' : σ → σ → Prop} {o o₁ o₂ : Outcome σ α} (h₁ : Alike R o o₁)
    (h₂ : Alike R o o₂) (hR : ∀ s t u, R s t → R s u → R' t u) : Alike R' o₁ o₂ := by
  cases o <;> cases o₁ <;> first | exact h₁.elim | skip
  all_goals cases o₂ <;> first | exact h₂.elim | skip
  · exact ⟨h₁.1.symm.trans h₂.1, hR _ _ _ h₁.2 h₂.2⟩
  · exact hR _ _ _ h₁ h₂
  · exact Eq.trans (Eq.symm h₁) h₂
  · trivial

theorem Alike.bind {R R' : σ → σ → Prop} {c d : Cmd σ α} {k l : α → Cmd σ β} {s t : σ}
    (h : Alike R (c s) (d t)) (hR : ∀ s t, R s t → R' s t)
    (hk : ∀ a s t, R s t → Alike R' (k a s) (l a t)) : Alike R' ((c >>= k) s) ((d >>= l) t) :=
  h.bind_of_run hR fun a s' t' _ hst => hk a s' t' hst

/-- What always returns, and loses nothing of what `R` looks at, does not bring two
runs together. -/
theorem Alike.of_bind {R : σ → σ → Prop} {c d : Cmd σ α} {k : α → Cmd σ β} {f : α → β} {g : σ → σ}
    {s t : σ} (hk : ∀ a s, k a s = .ok (f a) (g s)) (hf : ∀ a b, f a = f b → a = b)
    (hg : ∀ s t, R (g s) (g t) → R s t) (h : Alike R ((c >>= k) s) ((d >>= k) t)) :
    Alike R (c s) (d t) := by
  rw [bind_run, bind_run] at h
  cases hc : c s <;> cases hd : d t <;> simp only [hc, hd, andThen, hk] at h <;> try exact h.elim
  · exact ⟨hf _ _ h.1, hg _ _ h.2⟩
  · exact h
  · exact h
  · trivial

/-- The second command returns if the first one does. -/
theorem Alike.ok {R : σ → σ → Prop} {o o' : Outcome σ α} {a : α} {s : σ} (h : Alike R o o')
    (ho : o = .ok a s) : ∃ t, o' = .ok a t ∧ R s t := by
  subst ho
  cases o' with
  | ok b t => exact ⟨t, by rw [h.1], h.2⟩
  | jump t => exact h.elim
  | abort e => exact h.elim
  | outOfFuel => exact h.elim

/-- Two runs from related states end alike, in states related as before. -/
class Syncs (R : σ → σ → Prop) (c : Cmd σ α) : Prop where
  alike : ∀ s t, R s t → Alike R (c s) (c t)

/-- The change keeps states related. -/
class Synced (R : σ → σ → Prop) (g : σ → σ) : Prop where
  synced : ∀ s t, R s t → R (g s) (g t)

/-- The value is the same in related states. -/
class Seen (R : σ → σ → Prop) (f : σ → α) : Prop where
  seen : ∀ s t, R s t → f s = f t

section Syncs

variable {R : σ → σ → Prop} {c d : Cmd σ α} {k : α → Cmd σ β}

instance Syncs.pure (a : α) : Syncs R (pure a) := ⟨fun _ _ h => ⟨rfl, h⟩⟩

instance Syncs.bind [hc : Syncs R c] [hk : ∀ a, Syncs R (k a)] : Syncs R (c >>= k) :=
  ⟨fun s t h => (hc.alike s t h).bind (fun _ _ h => h) fun a s t h => (hk a).alike s t h⟩

instance Syncs.ite {p : Prop} [Decidable p] [hc : Syncs R c] [hd : Syncs R d] :
    Syncs R (if p then c else d) := by
  split
  · exact hc
  · exact hd

instance Syncs.dite {p : Prop} [Decidable p] {c : p → Cmd σ α} {d : ¬ p → Cmd σ α}
    [hc : ∀ h, Syncs R (c h)] [hd : ∀ h, Syncs R (d h)] : Syncs R (if h : p then c h else d h) := by
  split
  · exact hc _
  · exact hd _

instance Syncs.read (f : σ → α) [hf : Seen R f] : Syncs R (read f) := ⟨fun s t h => ⟨hf.seen s t h, h⟩⟩

instance Syncs.write (g : σ → σ) [hg : Synced R g] : Syncs R (write g) :=
  ⟨fun s t h => ⟨rfl, hg.synced s t h⟩⟩

instance Syncs.fail (e : Failure) : Syncs R (fail e : Cmd σ α) := ⟨fun _ _ _ => rfl⟩

instance Syncs.abort : Syncs R (abort : Cmd σ α) := ⟨fun _ _ _ => rfl⟩

instance Syncs.jump : Syncs R (jump : Cmd σ α) := ⟨fun _ _ h => h⟩

instance Syncs.outOfFuel : Syncs R (outOfFuel : Cmd σ α) := ⟨fun _ _ _ => trivial⟩

instance Syncs.upto {body : ℕ → Cmd σ Unit} [h : ∀ i, Syncs R (body i)] :
    ∀ n, Syncs R (upto body n)
  | 0 => Syncs.pure ()
  | n + 1 => @Syncs.bind _ _ _ _ _ _ (Syncs.upto n) fun _ => h n

end Syncs

/-- Two runs from states related by `R` end alike, in states related by `R'`. -/
def Leads (R R' : σ → σ → Prop) (c : Cmd σ α) : Prop := ∀ s t, R s t → Alike R' (c s) (c t)

section Leads

variable {R R' R'' : σ → σ → Prop} {c : Cmd σ α} {k : α → Cmd σ β}

theorem Syncs.leads [h : Syncs R c] (hR : ∀ s t, R s t → R' s t) : Leads R R' c :=
  fun s t hst => (h.alike s t hst).mono hR

theorem Leads.mono (h : Leads R' R'' c) (hR : ∀ s t, R s t → R' s t) : Leads R R'' c :=
  fun s t hst => h s t (hR s t hst)

theorem Leads.pure (a : α) (hR : ∀ s t, R s t → R' s t) : Leads R R' (Pure.pure a : Cmd σ α) :=
  fun s t hst => ⟨rfl, hR s t hst⟩

theorem Leads.bind [hs : Straight c] (hc : Leads R R' c) (hk : ∀ a, Leads R' R'' (k a)) :
    Leads R R'' (c >>= k) := by
  intro s t hst
  have halike := hc s t hst
  rw [bind_run, bind_run]
  cases hcs : c s with
  | ok a s' =>
    cases hct : c t <;> rw [hcs, hct] at halike <;> try exact halike.elim
    obtain ⟨rfl, hst'⟩ := halike
    exact hk a _ _ hst'
  | jump s' => exact absurd hcs hs.ne_jump
  | abort e => cases hct : c t <;> rw [hcs, hct] at halike <;> first | exact halike | exact halike.elim
  | outOfFuel => cases hct : c t <;> rw [hcs, hct] at halike <;> trivial

/-- After a command that keeps the states related. -/
theorem Leads.bind_syncs [Straight c] [Syncs R c] (hk : ∀ a, Leads R R' (k a)) : Leads R R' (c >>= k) :=
  .bind (Syncs.leads fun _ _ h => h) hk

theorem Leads.bind_write {g : σ → σ} {k : Unit → Cmd σ β} (hg : ∀ s t, R s t → R' (g s) (g t))
    (hk : Leads R' R'' (k ())) : Leads R R'' (write g >>= k) :=
  fun s t hst => hk _ _ (hg s t hst)

end Leads

/-! ### Two commands that agree, or else -/

section Agree

variable {I : σ → Prop} {B : (β : Type) → Outcome σ β → Outcome σ β → Prop}

/-- Two commands run alike, except where `B` holds of their outcomes. -/
def Agree (B : (β : Type) → Outcome σ β → Outcome σ β → Prop) (c d : Cmd σ α) : Prop :=
  ∀ s, c s = d s ∨ B α (c s) (d s)

/-- What follows does not undo `B`, as long as the second command keeps `I`. -/
def Sticks (I : σ → Prop) (B : (β : Type) → Outcome σ β → Outcome σ β → Prop) : Prop :=
  ∀ (α β : Type) (o o' : Outcome σ α) (k l : α → Cmd σ β), B α o o' → (∀ a, Keeps I (l a)) →
    B β (andThen o k) (andThen o' l)

/-- The second command does not return. -/
theorem sticks_ne_ok (I : σ → Prop) : Sticks I fun _ _ o => ∀ a s, o ≠ .ok a s := by
  intro α β o o' k l h _ b s hok
  obtain ⟨a, s', ho, -⟩ := andThen_eq_ok hok
  exact h a s' ho

/-- The second command ends well. -/
theorem sticks_ends (I : σ → Prop) : Sticks I fun _ _ o => Ends (fun _ => I) I o := by
  intro α β o o' k l h hl
  cases o' with
  | ok a s => exact (hl a).ends s h
  | jump s => exact h
  | abort e => trivial
  | outOfFuel => trivial

theorem Agree.refl (c : Cmd σ α) : Agree B c c := fun _ => .inl rfl

/-- After the same command. -/
theorem Agree.bind_same {c : Cmd σ α} {k l : α → Cmd σ β} (hk : ∀ a, Agree B (k a) (l a)) :
    Agree B (c >>= k) (c >>= l) := by
  intro s
  rw [bind_run, bind_run]
  cases c s with
  | ok a s' => exact hk a s'
  | jump s' => exact .inl rfl
  | abort e => exact .inl rfl
  | outOfFuel => exact .inl rfl

theorem Agree.ite {p : Prop} [Decidable p] {c d c' d' : Cmd σ α} (h : Agree B c d)
    (h' : Agree B c' d') : Agree B (if p then c else c') (if p then d else d') := by
  split
  · exact h
  · exact h'

theorem Agree.bind (hB : Sticks I B) {c d : Cmd σ α} {k l : α → Cmd σ β} (h : Agree B c d)
    (hk : ∀ a, Agree B (k a) (l a)) (hl : ∀ a, Keeps I (l a)) : Agree B (c >>= k) (d >>= l) := by
  intro s
  rw [bind_run, bind_run]
  rcases h s with heq | hB'
  · rw [heq]
    cases d s with
    | ok a s' => exact hk a s'
    | jump s' => exact .inl rfl
    | abort e => exact .inl rfl
    | outOfFuel => exact .inl rfl
  · exact .inr (hB _ _ _ _ _ _ hB' hl)

end Agree

end Cmd
