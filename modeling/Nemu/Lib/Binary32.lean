/-
# Single precision numbers

The value of a bit pattern of IEEE 754 single precision, as a rational: sign,
eight bits of exponent, 23 bits of fraction. A pattern with exponent 0 is a zero
or subnormal. One with exponent 255 is no finite number; read like the others it
would be 2^128 or more. How large the magnitude is shows in the exponent alone
(`abs_value_lt_iff`).

Key definitions: `expo`, `significand`, `value`, `trunc`.
Key theorems: `abs_value`, `abs_value_lt_iff`, `trunc_sign_mul`.
-/
import Mathlib.Algebra.Order.Field.Power
import Mathlib.Data.Rat.Floor
import Mathlib.Tactic.Linarith
import Mathlib.Tactic.NormNum
import Mathlib.Tactic.Ring

namespace Binary32

/-- The sign, as a factor. -/
def sign (b : BitVec 32) : ℤ := if b.msb then -1 else 1

/-- The biased exponent. -/
def expo (b : BitVec 32) : ℕ := b.toNat / 2 ^ 23 % 2 ^ 8

def frac (b : BitVec 32) : ℕ := b.toNat % 2 ^ 23

/-- The fraction with its leading one, if it has one. -/
def significand (b : BitVec 32) : ℕ := if expo b = 0 then frac b else frac b + 2 ^ 23

/-- The exponent of the last digit. -/
def scale (b : BitVec 32) : ℤ := if expo b = 0 then -149 else expo b - 150

def value (b : BitVec 32) : ℚ := sign b * (significand b * 2 ^ scale b)

/-- Rounding toward zero. -/
def trunc (q : ℚ) : ℤ := if 0 ≤ q then ⌊q⌋ else ⌈q⌉

variable {b : BitVec 32}

theorem frac_lt (b : BitVec 32) : frac b < 2 ^ 23 := Nat.mod_lt _ (by decide)

theorem significand_lt (b : BitVec 32) : significand b < 2 ^ 24 := by
  have := frac_lt b
  unfold significand
  split_ifs <;> omega

theorem le_significand (h : expo b ≠ 0) : 2 ^ 23 ≤ significand b := by
  rw [significand, if_neg h]
  exact Nat.le_add_left ..

theorem abs_value (b : BitVec 32) : |value b| = significand b * 2 ^ scale b := by
  have hpos : (0 : ℚ) ≤ significand b * 2 ^ scale b := by positivity
  unfold value sign
  split_ifs
  · rw [abs_mul, abs_of_nonneg hpos]
    norm_num
  · rw [abs_mul, abs_of_nonneg hpos]
    norm_num

/-- **The magnitude** is below a power of two if the exponent says so. -/
theorem abs_value_lt_iff {n : ℤ} (hn : -126 ≤ n) : |value b| < 2 ^ n ↔ (expo b : ℤ) < n + 127 := by
  have hlt : ((significand b : ℕ) : ℚ) < 2 ^ (24 : ℤ) := by exact_mod_cast significand_lt b
  rw [abs_value]
  by_cases h0 : expo b = 0
  · refine ⟨fun _ => by omega, fun _ => ?_⟩
    have hfrac : ((significand b : ℕ) : ℚ) < 2 ^ (23 : ℤ) := by
      rw [significand, if_pos h0]
      exact_mod_cast frac_lt b
    rw [scale, if_pos h0]
    calc (significand b : ℚ) * 2 ^ (-149 : ℤ) < 2 ^ (23 : ℤ) * 2 ^ (-149 : ℤ) := by
          apply mul_lt_mul_of_pos_right hfrac
          positivity
      _ = 2 ^ (-126 : ℤ) := by norm_num
      _ ≤ 2 ^ n := zpow_le_zpow_right₀ (by norm_num) hn
  · have hge : (2 : ℚ) ^ (23 : ℤ) ≤ (significand b : ℕ) := by exact_mod_cast le_significand h0
    rw [scale, if_neg h0]
    constructor
    · intro h
      by_contra hle
      apply absurd h
      rw [not_lt]
      calc (2 : ℚ) ^ n ≤ 2 ^ ((23 : ℤ) + (expo b - 150)) := zpow_le_zpow_right₀ (by norm_num) (by omega)
        _ = 2 ^ (23 : ℤ) * 2 ^ ((expo b : ℤ) - 150) := zpow_add₀ (by norm_num) ..
        _ ≤ significand b * 2 ^ ((expo b : ℤ) - 150) := by
          apply mul_le_mul_of_nonneg_right hge
          positivity
    · intro h
      calc (significand b : ℚ) * 2 ^ ((expo b : ℤ) - 150)
          < 2 ^ (24 : ℤ) * 2 ^ ((expo b : ℤ) - 150) := by
            apply mul_lt_mul_of_pos_right hlt
            positivity
        _ = 2 ^ ((24 : ℤ) + (expo b - 150)) := (zpow_add₀ (by norm_num) ..).symm
        _ ≤ 2 ^ n := zpow_le_zpow_right₀ (by norm_num) (by omega)

theorem trunc_of_nonneg {q : ℚ} (h : 0 ≤ q) : trunc q = ⌊q⌋ := if_pos h

theorem trunc_neg_of_nonneg {q : ℚ} (h : 0 ≤ q) : trunc (-q) = -⌊q⌋ := by
  rcases h.eq_or_lt with rfl | hpos
  · simp [trunc]
  · rw [trunc, if_neg (by linarith), Int.ceil_neg]

/-- The sign is kept by rounding toward zero. -/
theorem trunc_sign_mul (b : BitVec 32) {q : ℚ} (h : 0 ≤ q) : trunc (sign b * q) = sign b * ⌊q⌋ := by
  unfold sign
  split_ifs
  · have hneg : (((-1 : ℤ) : ℚ)) * q = -q := by push_cast; ring
    rw [hneg, trunc_neg_of_nonneg h]
    ring
  · have hone : (((1 : ℤ) : ℚ)) * q = q := by push_cast; ring
    rw [hone, trunc_of_nonneg h]
    ring

end Binary32
