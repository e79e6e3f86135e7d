/-
# Loops that test at the end

`do … while`: the body may fail, and says whether it is to be run again. The
rounds are counted; `none` means that they are used up. An invariant that every
round but the last keeps while a measure goes down makes the loop end
(`doWhile_total`), and a round that fails makes it fail (`doWhile_error`).

Key definitions: `doWhile`.
Key theorems: `doWhile_total`, `doWhile_error`, `doWhile_again`, `doWhile_mono`.
-/
import Mathlib.Data.Nat.Notation
import Mathlib.Tactic.Common

namespace DoWhile

variable {σ ε : Type}

/-- At most so many rounds. -/
def doWhile (body : σ → Except ε (Bool × σ)) : ℕ → σ → Except ε (Option σ)
  | 0, _ => .ok none
  | n + 1, s =>
    match body s with
    | .error e => .error e
    | .ok (true, s') => doWhile body n s'
    | .ok (false, s') => .ok (some s')

variable {body : σ → Except ε (Bool × σ)} {s s' : σ} {n : ℕ}

/-- A round before the last. -/
theorem doWhile_again (h : body s = .ok (true, s')) : doWhile body (n + 1) s = doWhile body n s' := by
  rw [doWhile, h]

/-- The last round. -/
theorem doWhile_last (h : body s = .ok (false, s')) : doWhile body (n + 1) s = .ok (some s') := by
  rw [doWhile, h]

/-- A round that fails. -/
theorem doWhile_error {e : ε} (h : body s = .error e) : doWhile body (n + 1) s = .error e := by
  rw [doWhile, h]

/-- An end that was reached is the same with more rounds. -/
theorem doWhile_mono : ∀ {n m : ℕ} {s : σ}, n ≤ m → doWhile body n s ≠ .ok none →
    doWhile body m s = doWhile body n s
  | 0, _, _, _, h => (h rfl).elim
  | n + 1, 0, _, hle, _ => absurd hle (Nat.not_succ_le_zero n)
  | n + 1, m + 1, s, hle, h => by
    rw [doWhile] at h ⊢
    rw [doWhile]
    cases hrun : body s with
    | error e => rfl
    | ok r =>
      obtain ⟨again, s'⟩ := r
      rw [hrun] at h
      cases again with
      | false => rfl
      | true => exact doWhile_mono (Nat.le_of_succ_le_succ hle) h

/-- **Termination.** With as many rounds as the measure says, and with any more, the
loop ends in a state with the postcondition. -/
theorem doWhile_total {I Q : σ → Prop} {μ : σ → ℕ}
    (hbody : ∀ s, I s → ∃ s', (body s = .ok (true, s') ∧ I s' ∧ μ s' < μ s) ∨
      (body s = .ok (false, s') ∧ Q s')) (hs : I s) :
    ∃ t, Q t ∧ ∀ n, μ s < n → doWhile body n s = .ok (some t) := by
  induction hμ : μ s using Nat.strongRecOn generalizing s with
  | ind m ih =>
    subst hμ
    obtain ⟨s', ⟨hrun, hI, hlt⟩ | ⟨hrun, hQ⟩⟩ := hbody s hs
    · obtain ⟨t, hQ, hend⟩ := ih (μ s') hlt hI rfl
      refine ⟨t, hQ, fun n hn => ?_⟩
      obtain ⟨k, rfl⟩ : ∃ k, n = k + 1 := ⟨n - 1, by omega⟩
      rw [doWhile_again hrun]
      exact hend k (by omega)
    · refine ⟨s', hQ, fun n hn => ?_⟩
      obtain ⟨k, rfl⟩ : ∃ k, n = k + 1 := ⟨n - 1, by omega⟩
      exact doWhile_last hrun

end DoWhile
