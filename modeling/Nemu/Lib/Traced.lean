/-
# Computations that leave a trace

A computation reads and changes a state, may fail, and leaves the list of the
events up to its end or its failure. `All P c s` says that the run of `c` from
`s` leaves only events that meet `P`; there is one rule for each way to put
computations together.

Key definitions: `Traced`, `All`, `upto`, `search`.
Key theorems: `result_bind`, `all_bind`, `result_search`, `all_search`.
-/
import Mathlib.Data.Nat.Notation
import Mathlib.Tactic.Common

/-- A computation over the states `σ` that leaves events `ε`. -/
def Traced (ε σ α : Type) : Type := σ → List ε × Option (α × σ)

namespace Traced

variable {ε σ α β : Type}

/-- What follows a computation. -/
def andThen (r : List ε × Option (α × σ)) (k : α → Traced ε σ β) : List ε × Option (β × σ) :=
  match r with
  | (l, none) => (l, none)
  | (l, some (a, s)) => (l ++ (k a s).1, (k a s).2)

instance : Monad (Traced ε σ) where
  pure a := fun s => ([], some (a, s))
  bind c k := fun s => andThen (c s) k

/-- The event happens. -/
def emit (e : ε) : Traced ε σ Unit := fun s => ([e], some ((), s))

/-- The value of `f` on the state. -/
def read (f : σ → α) : Traced ε σ α := fun s => ([], some (f s, s))

/-- The state becomes `g` of it. -/
def write (g : σ → σ) : Traced ε σ Unit := fun s => ([], some ((), g s))

/-- An access to the state that may fail. -/
def access (f : σ → Option (α × σ)) : Traced ε σ α := fun s => ([], f s)

def fail : Traced ε σ α := fun _ => ([], none)

/-- The value, if there is one. -/
def lift (o : Option α) : Traced ε σ α := access fun s => o.map (·, s)

/-- `body 0`, …, `body (n - 1)` in order. -/
def upto (body : ℕ → Traced ε σ Unit) : ℕ → Traced ε σ Unit
  | 0 => pure ()
  | n + 1 => do upto body n; body n

/-- The first element that meets `p`; each one that is tested leaves an event. -/
def search (event : α → ε) (p : α → σ → Bool) : List α → Traced ε σ (Option α)
  | [] => pure none
  | a :: l => do
    emit (event a)
    let found ← read (p a)
    if found then pure (some a) else search event p l

/-- The events of a run. -/
def events (c : Traced ε σ α) (s : σ) : List ε := (c s).1

/-- The result and the state of a run that did not fail. -/
def result (c : Traced ε σ α) (s : σ) : Option (α × σ) := (c s).2

/-- All events of a run meet `P`. -/
def All (P : ε → Prop) (c : Traced ε σ α) (s : σ) : Prop := ∀ e ∈ c.events s, P e

/-! ### The result -/

section Result

variable {s : σ}

@[simp] theorem result_pure (a : α) (s : σ) : result (pure a : Traced ε σ α) s = some (a, s) := rfl

@[simp] theorem result_emit (e : ε) (s : σ) : result (emit e) s = some ((), s) := rfl

@[simp] theorem result_read (f : σ → α) (s : σ) : result (read f : Traced ε σ α) s = some (f s, s) := rfl

@[simp] theorem result_write (g : σ → σ) (s : σ) :
    result (write g : Traced ε σ Unit) s = some ((), g s) := rfl

@[simp] theorem result_access (f : σ → Option (α × σ)) (s : σ) :
    result (access f : Traced ε σ α) s = f s := rfl

@[simp] theorem result_fail (s : σ) : result (fail : Traced ε σ α) s = none := rfl

@[simp] theorem result_lift (o : Option α) (s : σ) : result (lift o : Traced ε σ α) s = o.map (·, s) := rfl

@[simp] theorem result_bind (c : Traced ε σ α) (k : α → Traced ε σ β) (s : σ) :
    result (c >>= k) s = (result c s).bind fun r => result (k r.1) r.2 := by
  change (andThen (c s) k).2 = _
  unfold andThen result
  rcases c s with ⟨l, - | ⟨a, s'⟩⟩ <;> rfl

theorem result_search (event : α → ε) (p : α → σ → Bool) (l : List α) (s : σ) :
    result (search event p l) s = some (l.find? fun a => p a s, s) := by
  induction l with
  | nil => rfl
  | cons a l ih =>
    cases h : p a s with
    | true => simp [search, h]
    | false => simp [search, h, ih]

end Result

/-! ### The events -/

section Events

variable {P : ε → Prop} {s : σ}

@[simp] theorem all_pure (a : α) (s : σ) : All P (pure a : Traced ε σ α) s := by
  intro e he
  exact absurd he List.not_mem_nil

@[simp] theorem all_emit {e : ε} : All P (emit e) s ↔ P e := List.forall_mem_singleton

@[simp] theorem all_read (f : σ → α) (s : σ) : All P (read f) s := by
  intro e he
  exact absurd he List.not_mem_nil

@[simp] theorem all_write (g : σ → σ) (s : σ) : All P (write g) s := by
  intro e he
  exact absurd he List.not_mem_nil

@[simp] theorem all_access (f : σ → Option (α × σ)) (s : σ) : All P (access f) s := by
  intro e he
  exact absurd he List.not_mem_nil

@[simp] theorem all_fail (s : σ) : All P (fail : Traced ε σ α) s := by
  intro e he
  exact absurd he List.not_mem_nil

@[simp] theorem all_lift (o : Option α) (s : σ) : All P (lift o) s := all_access _ _

/-- The events of a computation, and those of what follows it if it does not fail. -/
theorem all_bind {c : Traced ε σ α} {k : α → Traced ε σ β} :
    All P (c >>= k) s ↔ All P c s ∧ ∀ a s', result c s = some (a, s') → All P (k a) s' := by
  unfold All events
  change (∀ e ∈ (andThen (c s) k).1, P e) ↔ _
  unfold result andThen
  rcases c s with ⟨l, - | ⟨a, s'⟩⟩
  · simp
  · rw [List.forall_mem_append]
    apply and_congr_right
    intro _
    simp

/-- A bind of a computation with a known result. -/
theorem all_bind_of_result {c : Traced ε σ α} {k : α → Traced ε σ β} {a : α} {s' : σ}
    (h : result c s = some (a, s')) : All P (c >>= k) s ↔ All P c s ∧ All P (k a) s' := by
  rw [all_bind]
  simp [h]

theorem all_bind_emit {e : ε} {k : Unit → Traced ε σ β} : All P (emit e >>= k) s ↔ P e ∧ All P (k ()) s := by
  rw [all_bind_of_result (result_emit e s), all_emit]

theorem all_bind_read {f : σ → α} {k : α → Traced ε σ β} : All P (read f >>= k) s ↔ All P (k (f s)) s := by
  rw [all_bind_of_result (result_read f s)]
  simp

theorem all_bind_write {g : σ → σ} {k : Unit → Traced ε σ β} :
    All P (write g >>= k) s ↔ All P (k ()) (g s) := by
  rw [all_bind_of_result (result_write g s)]
  simp

theorem all_bind_access {f : σ → Option (α × σ)} {k : α → Traced ε σ β} :
    All P (access f >>= k) s ↔ ∀ a s', f s = some (a, s') → All P (k a) s' := by
  rw [all_bind]
  simp

/-- What only fails or returns leaves nothing. -/
theorem all_bind_lift {c : Traced ε σ α} {f : α → Option β} :
    All P (c >>= fun a => lift (f a)) s ↔ All P c s := by
  rw [all_bind]
  simp

theorem all_search {event : α → ε} {p : α → σ → Bool} {l : List α} (h : ∀ a ∈ l, P (event a)) :
    All P (search event p l) s := by
  induction l with
  | nil => exact all_pure _ _
  | cons a l ih =>
    rw [List.forall_mem_cons] at h
    rw [search, all_bind_emit, all_bind_read]
    refine ⟨h.1, ?_⟩
    split
    · exact all_pure _ _
    · exact ih h.2

theorem all_upto_succ {body : ℕ → Traced ε σ Unit} {n : ℕ} : All P (upto body (n + 1)) s ↔
    All P (upto body n) s ∧ ∀ s', result (upto body n) s = some ((), s') → All P (body n) s' := by
  rw [upto, all_bind]
  apply and_congr_right
  intro _
  exact ⟨fun h s' => h () s', fun h _ s' => h s'⟩

/-- The loop of one round. -/
theorem all_upto_one {body : ℕ → Traced ε σ Unit} : All P (upto body 1) s ↔ All P (body 0) s := by
  rw [all_upto_succ, upto]
  simp

/-- A loop, each round of which leaves such events from any state. -/
theorem all_upto {body : ℕ → Traced ε σ Unit} {n : ℕ} (h : ∀ i < n, ∀ s, All P (body i) s) :
    All P (upto body n) s := by
  induction n with
  | zero => exact all_pure _ _
  | succ n ih =>
    rw [all_upto_succ]
    exact ⟨ih fun i hi => h i (by omega), fun s' _ => h n (by omega) s'⟩

/-- The first round of a loop. -/
theorem all_of_upto {body : ℕ → Traced ε σ Unit} {n : ℕ} (h : All P (upto body (n + 1)) s) :
    All P (body 0) s := by
  induction n with
  | zero => exact all_upto_one.mp h
  | succ n ih => exact ih (all_upto_succ.mp h).1

end Events

end Traced
