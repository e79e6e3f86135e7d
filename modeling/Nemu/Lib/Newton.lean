/-
# Newton's iteration in integers

A step for the square root of `S` is the mean of `t` and `S / t`, one for the
cube root of `R` the mean of `t`, `t` and `R / t²`. A mean is not below the root,
whatever `t` is, and rounding costs less than one: so after a step the iterate
is never below the root by one or more. From there a step with `S / t` close to
`t` ends close to the root.

Key theorems: `sq_step`, `cube_step`, `sq_near`.
-/
import Mathlib.Algebra.Order.Ring.Int
import Mathlib.Tactic.Linarith
import Mathlib.Tactic.Ring

namespace Newton

variable {S R t q u d : ℤ}

/-- Two numbers and their mean. -/
theorem mul_le_sq_mean (t p : ℤ) : 4 * (t * p) ≤ (t + p) ^ 2 := by
  have h : 0 ≤ (t - p) ^ 2 := sq_nonneg _
  calc 4 * (t * p) ≤ 4 * (t * p) + (t - p) ^ 2 := le_add_of_nonneg_right h
    _ = (t + p) ^ 2 := by ring

/-- Three numbers, two of them equal, and their mean. -/
theorem mul_le_cube_mean {t p : ℤ} (ht : 0 ≤ t) (hp : 0 ≤ p) : 27 * (t ^ 2 * p) ≤ (2 * t + p) ^ 3 := by
  have h : 0 ≤ (t - p) ^ 2 * (8 * t + p) := by positivity
  calc 27 * (t ^ 2 * p) ≤ 27 * (t ^ 2 * p) + (t - p) ^ 2 * (8 * t + p) := le_add_of_nonneg_right h
    _ = (2 * t + p) ^ 3 := by ring

/-- **A step for the square root**, with `q` for `S / t` rounded down and `u` for the
mean, less than one below it. -/
theorem sq_step (hq : S < t * (q + 1)) (h0 : 0 ≤ t + q) (hu : t + q ≤ 2 * u + 1) : S < (u + 1) ^ 2 := by
  have hmean := mul_le_sq_mean t (q + 1)
  have hle : (t + (q + 1)) ^ 2 ≤ (2 * (u + 1)) ^ 2 := pow_le_pow_left₀ (by omega) (by omega) 2
  have hfour : (2 * (u + 1)) ^ 2 = 4 * (u + 1) ^ 2 := by ring
  omega

/-- **A step for the cube root.** -/
theorem cube_step (hq : R < t ^ 2 * (q + 1)) (ht : 0 ≤ t) (h0 : 0 ≤ q) (hu : 2 * t + q ≤ 3 * u + 2) :
    R < (u + 1) ^ 3 := by
  have hmean := mul_le_cube_mean ht (show 0 ≤ q + 1 by omega)
  have hle : (2 * t + (q + 1)) ^ 3 ≤ (3 * (u + 1)) ^ 3 := pow_le_pow_left₀ (by omega) (by omega) 3
  have hcube : (3 * (u + 1)) ^ 3 = 27 * (u + 1) ^ 3 := by ring
  omega

/-- The step by `d` goes to `u`, and `S / t` is at least as far on the other side,
but for one: so `u` is above the root by little. -/
theorem sq_near (hS : q * t ≤ S) (ht : 0 ≤ t) (hu : u = t + d) (hq : t + 2 * d - 1 ≤ q) :
    u ^ 2 ≤ S + u + d ^ 2 - d := by
  have hle : (t + 2 * d - 1) * t ≤ q * t := mul_le_mul_of_nonneg_right hq ht
  have hexp : (t + 2 * d - 1) * t = u ^ 2 - u - d ^ 2 + d := by
    rw [hu]
    ring
  omega

end Newton
