/-
# Division by shifting and subtracting

One digit of the quotient is found at a time: the remainder is doubled, and if
the divisor fits, it is subtracted and the digit is one. From the remainder and
the quotient of `a` one comes in a step to those of `2 * a`.

Key definitions: `step`.
Key theorems: `step_eq`.
-/
import Mathlib.Data.Nat.Notation
import Mathlib.Tactic.Common
import Mathlib.Tactic.Ring

namespace ShiftSub

/-- One more digit, from the remainder and the quotient so far. -/
def step (b : ℕ) (x : ℕ × ℕ) : ℕ × ℕ :=
  if b ≤ 2 * x.1 then (2 * x.1 - b, 2 * x.2 + 1) else (2 * x.1, 2 * x.2)

variable {a b : ℕ}

/-- The step doubles the dividend. -/
theorem step_eq (hb : 0 < b) (a : ℕ) : step b (a % b, a / b) = (2 * a % b, 2 * a / b) := by
  have hlt := Nat.mod_lt a hb
  have hsplit : 2 * a = 2 * (a % b) + b * (2 * (a / b)) := by
    calc 2 * a = 2 * (a % b + b * (a / b)) := by rw [Nat.mod_add_div]
      _ = 2 * (a % b) + b * (2 * (a / b)) := by ring
  unfold step
  by_cases h : b ≤ 2 * (a % b)
  · have hunique := (Nat.div_mod_unique hb (a := 2 * a) (c := 2 * (a % b) - b) (d := 2 * (a / b) + 1)).mpr
      ⟨by rw [Nat.mul_add]; omega, by omega⟩
    rw [if_pos h, hunique.1, hunique.2]
  · have hunique := (Nat.div_mod_unique hb (a := 2 * a) (c := 2 * (a % b)) (d := 2 * (a / b))).mpr
      ⟨hsplit.symm, by omega⟩
    rw [if_neg h, hunique.1, hunique.2]

end ShiftSub
