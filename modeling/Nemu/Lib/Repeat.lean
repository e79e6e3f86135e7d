/-
# Repetition with an early end

A step repeated at most `n` times, which ends before that with the step after
which `hit` is found. It is the step iterated, as often as the first hit says.

Key definitions: `repeatUntil`, `steps`.
Key theorems: `repeatUntil_of_miss`, `repeatUntil_of_hit`, `steps_lt_iff`.
-/
import Mathlib.Data.Nat.Notation
import Mathlib.Logic.Function.Iterate
import Mathlib.Tactic.Common

namespace Repeat

variable {σ : Type}

/-- At most `n` steps, the last of which is one from a state with `hit`. -/
def repeatUntil (step : σ → σ) (hit : σ → Bool) : ℕ → σ → σ
  | 0, s => s
  | n + 1, s => if hit s then step s else repeatUntil step hit n (step s)

/-- How many steps these are. -/
def steps (step : σ → σ) (hit : σ → Bool) : ℕ → σ → ℕ
  | 0, _ => 0
  | n + 1, s => if hit s then 1 else steps step hit n (step s) + 1

variable {step : σ → σ} {hit : σ → Bool}

/-- Without a hit it takes all steps. -/
theorem repeatUntil_of_miss : ∀ (n : ℕ) (s : σ), (∀ i < n, hit (step^[i] s) = false) →
    repeatUntil step hit n s = step^[n] s
  | 0, _, _ => rfl
  | n + 1, s, h => by
    have hs : hit s = false := h 0 n.succ_pos
    rw [repeatUntil, hs, if_neg Bool.false_ne_true]
    exact repeatUntil_of_miss n (step s) fun i hi => h (i + 1) (Nat.succ_lt_succ hi)

/-- The first hit is the last step. -/
theorem repeatUntil_of_hit : ∀ (n k : ℕ) (s : σ), k < n → hit (step^[k] s) = true →
    (∀ i < k, hit (step^[i] s) = false) → repeatUntil step hit n s = step^[k + 1] s
  | 0, _, _, hk, _, _ => absurd hk (Nat.not_lt_zero _)
  | n + 1, 0, s, _, h, _ => by
    have hs : hit s = true := h
    rw [repeatUntil, if_pos hs]
    rfl
  | n + 1, k + 1, s, hk, h, hmiss => by
    have hs : hit s = false := hmiss 0 k.succ_pos
    rw [repeatUntil, hs, if_neg Bool.false_ne_true]
    exact repeatUntil_of_hit n k (step s) (Nat.lt_of_succ_lt_succ hk) h fun i hi =>
      hmiss (i + 1) (Nat.succ_lt_succ hi)

theorem steps_pos {n : ℕ} (hn : 0 < n) (s : σ) : 0 < steps step hit n s := by
  obtain ⟨n, rfl⟩ := Nat.exists_eq_succ_of_ne_zero (Nat.ne_of_gt hn)
  rw [steps]
  split
  · exact Nat.one_pos
  · exact Nat.succ_pos _

/-- There are few steps if few are allowed, or if there is a hit early. -/
theorem steps_lt_iff : ∀ (n b : ℕ) (s : σ),
    steps step hit n s < b ↔ n < b ∨ ∃ k, k + 1 < b ∧ hit (step^[k] s) = true
  | 0, b, s => by
    refine ⟨.inl, fun h => ?_⟩
    rcases h with h | ⟨k, hk, -⟩
    · exact h
    · exact Nat.lt_of_le_of_lt (Nat.zero_le _) hk
  | n + 1, b, s => by
    rw [steps]
    by_cases hs : hit s = true
    · rw [if_pos hs]
      refine ⟨fun h => .inr ⟨0, h, hs⟩, fun h => ?_⟩
      rcases h with h | ⟨k, hk, -⟩
      · omega
      · omega
    · rw [if_neg hs]
      have ih := steps_lt_iff n (b - 1) (step s)
      constructor
      · intro h
        rcases ih.mp (by omega) with h | ⟨k, hk, hhit⟩
        · exact .inl (by omega)
        · exact .inr ⟨k + 1, by omega, hhit⟩
      · intro h
        refine Nat.add_lt_of_lt_sub (ih.mpr ?_)
        rcases h with h | ⟨k, hk, hhit⟩
        · exact .inl (by omega)
        · cases k with
          | zero => exact absurd hhit hs
          | succ k => exact .inr ⟨k, by omega, hhit⟩

end Repeat
