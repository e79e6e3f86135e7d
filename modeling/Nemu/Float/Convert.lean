/-
# From single precision to fixed point

`f2F` of `FLOAT.c` takes a `float` apart: the significand with its leading one is
shifted by what its exponent says. It treats exponent 0 like any other, and it
does not ask whether a number is so small that nothing is left of it: below
2^-24 it shifts an `int` by 32 or more.

Key definitions: `shiftRight`, `shiftLeft`, `f2F`.
Key theorems: `f2F_eq`, `floor_shifted`, `f2F_iff`.
-/
import Nemu.Float.Divide
import Nemu.Lib.Binary32
import Nemu.Lib.Bytes

namespace Nemu

namespace Fixed

open Binary32

/-- `k >>= n`, for a shift count that is less than the width. -/
def shiftRight (k n : ℤ) : Except Trouble ℤ :=
  if 0 ≤ n ∧ n < 32 then .ok (k.fdiv (2 ^ n.toNat)) else .error .shift

/-- `k <<= n`. -/
def shiftLeft (k n : ℤ) : Except Trouble ℤ :=
  if 0 ≤ n ∧ n < 32 then int (k * 2 ^ n.toNat) else .error .shift

/-- `f2F`, of the bits of its argument. -/
def f2F (b : BitVec 32) : Except Trouble ℤ := do
  let sign := b.sshiftRight 31
  let exp : ℤ := (b.sshiftRight 23 &&& 0xff).toNat
  let k : ℤ := (b &&& 0x7fffff).toNat
  let k := if exp ≠ 0 then k + 2 ^ 23 else k
  let exp := exp - 150
  let k ← if exp < -16 then shiftRight k (-16 - exp) else .ok k
  let k ← if exp > -16 then shiftLeft k (exp + 16) else .ok k
  if sign = 0 then .ok k else int (-k)

section Fields

variable {b : BitVec 32}

/-! ### The parts of the bit pattern -/

theorem toNat_and_low (w : BitVec 32) (n : ℕ) (hn : n ≤ 32) :
    (w &&& BitVec.ofNat 32 (2 ^ n - 1)).toNat = w.toNat % 2 ^ n := by
  have hlt : 2 ^ n - 1 < 2 ^ 32 := by
    have := Nat.pow_le_pow_right (show 0 < 2 by decide) hn
    have := Nat.two_pow_pos n
    omega
  rw [BitVec.toNat_and, BitVec.toNat_ofNat, Nat.mod_eq_of_lt hlt, Nat.and_two_pow_sub_one_eq_mod]

theorem toNat_frac (b : BitVec 32) : (b &&& 0x7fffff).toNat = frac b := toNat_and_low b 23 (by decide)

theorem toNat_expo (b : BitVec 32) : (b.sshiftRight 23 &&& 0xff).toNat = expo b := by
  have hmask : (b.sshiftRight 23 &&& 0xff).toNat = (b.sshiftRight 23).toNat % 2 ^ 8 :=
    toNat_and_low (b.sshiftRight 23) 8 (by decide)
  rw [hmask, ← BitVec.toNat_setWidth, Bytes.toNat_sshiftRight_field b (by decide)]
  rfl

theorem sign_shift (b : BitVec 32) : b.sshiftRight 31 = 0 ↔ b.msb = false := by
  constructor
  · intro h
    have hbit := congrArg (fun w => w.getLsbD 0) h
    simp only [BitVec.getLsbD_sshiftRight] at hbit
    rw [BitVec.msb_eq_getLsbD_last]
    simpa using hbit
  · intro h
    apply BitVec.eq_of_getLsbD_eq
    intro i hi
    rw [BitVec.getLsbD_sshiftRight, h]
    by_cases h0 : i = 0
    · subst h0
      rw [BitVec.msb_eq_getLsbD_last] at h
      simpa using h
    · have hout : ¬ 31 + i < 32 := by omega
      simp [hout]

/-! ### The result -/

/-- The significand, shifted to count 65536ths. -/
def shifted (b : BitVec 32) : ℕ :=
  if expo b < 134 then significand b / 2 ^ (134 - expo b) else significand b * 2 ^ (expo b - 134)

/-- The digits that are shifted out are those after the point. -/
theorem floor_shifted (h0 : expo b ≠ 0) :
    ⌊(significand b : ℚ) * 2 ^ scale b * 65536⌋ = (shifted b : ℤ) := by
  have hscale : (2 : ℚ) ^ scale b * 65536 = 2 ^ ((expo b : ℤ) - 134) := by
    have h16 : (65536 : ℚ) = 2 ^ (16 : ℤ) := by norm_num
    rw [scale, if_neg h0, h16, ← zpow_add₀ (by norm_num)]
    congr 1
    ring
  rw [mul_assoc, hscale, shifted]
  by_cases hlt : expo b < 134
  · have hneg : (2 : ℚ) ^ ((expo b : ℤ) - 134) = ((2 ^ (134 - expo b) : ℕ) : ℚ)⁻¹ := by
      have hexp : (expo b : ℤ) - 134 = -((134 - expo b : ℕ) : ℤ) := by omega
      rw [hexp, zpow_neg, zpow_natCast]
      push_cast
      rfl
    rw [if_pos hlt, hneg, ← div_eq_mul_inv]
    exact Rat.floor_natCast_div_natCast ..
  · have hpos : (2 : ℚ) ^ ((expo b : ℤ) - 134) = ((2 ^ (expo b - 134) : ℕ) : ℚ) := by
      have hexp : (expo b : ℤ) - 134 = ((expo b - 134 : ℕ) : ℤ) := by omega
      rw [hexp, zpow_natCast]
      push_cast
      rfl
    rw [if_neg hlt, hpos, ← Nat.cast_mul, Int.floor_natCast]

theorem shifted_lt (h : expo b < 142) : shifted b < 2 ^ 31 := by
  have hlt := significand_lt b
  unfold shifted
  by_cases h134 : expo b < 134
  · rw [if_pos h134]
    have := Nat.div_le_self (significand b) (2 ^ (134 - expo b))
    omega
  · rw [if_neg h134]
    calc significand b * 2 ^ (expo b - 134) ≤ significand b * 2 ^ 7 :=
          Nat.mul_le_mul_left _ (Nat.pow_le_pow_right (by decide) (by omega))
      _ < 2 ^ 31 := by omega

/-- **The conversion** of a number whose shift counts are in range. -/
theorem f2F_eq (hlow : 103 ≤ expo b) (hhigh : expo b < 142) : f2F b = .ok (sign b * shifted b) := by
  have hlt := shifted_lt hhigh
  have hk : (if (expo b : ℤ) ≠ 0 then (frac b : ℤ) + 2 ^ 23 else (frac b : ℤ)) = (significand b : ℤ) := by
    rw [if_pos (by omega), significand, if_neg (by omega)]
    push_cast
    rfl
  have hend : (if b.sshiftRight 31 = 0 then .ok (shifted b : ℤ) else int (-(shifted b : ℤ))) =
      (.ok (sign b * shifted b) : Except Trouble ℤ) := by
    unfold sign
    cases hmsb : b.msb with
    | false => rw [if_pos ((sign_shift b).mpr hmsb), if_neg Bool.false_ne_true, one_mul]
    | true =>
      have hne : ¬ b.sshiftRight 31 = 0 := fun h => by
        rw [(sign_shift b).mp h] at hmsb
        exact Bool.false_ne_true hmsb
      rw [if_neg hne, if_pos rfl, int_ok (by unfold IsInt; omega), neg_one_mul]
  unfold f2F
  simp only [toNat_expo, toNat_frac, hk]
  by_cases h134 : expo b < 134
  · have hcount : (-16 - ((expo b : ℤ) - 150)).toNat = 134 - expo b := by omega
    have hshift : (significand b : ℤ).fdiv (2 ^ (134 - expo b)) = (shifted b : ℤ) := by
      rw [shifted, if_pos h134, Int.fdiv_eq_ediv_of_nonneg _ (by positivity)]
      push_cast
      rfl
    rw [if_pos (by omega), shiftRight, if_pos (by omega), hcount, hshift, ok_bind, if_neg (by omega), ok_bind,
      hend]
  · rw [if_neg (by omega), ok_bind]
    by_cases heq : expo b = 134
    · have hshift : (significand b : ℤ) = (shifted b : ℤ) := by
        rw [shifted, if_neg h134, heq]
        simp
      rw [if_neg (by omega), ok_bind, hshift, hend]
    · have hcount : ((expo b : ℤ) - 150 + 16).toNat = expo b - 134 := by omega
      have hshift : (significand b : ℤ) * 2 ^ (expo b - 134) = (shifted b : ℤ) := by
        rw [shifted, if_neg h134]
        push_cast
        rfl
      rw [if_pos (by omega), shiftLeft, if_pos (by omega), hcount, hshift, int_ok (by unfold IsInt; omega),
        ok_bind, hend]

/-- A number that is too small is shifted too far. -/
theorem f2F_shift (h : expo b < 103) : f2F b = .error .shift := by
  unfold f2F
  simp only [toNat_expo]
  rw [if_pos (by omega), shiftRight, if_neg (by omega), error_bind]

/-- **`f2F`.** For a number of magnitude less than 2^15 no shift count is 32 or more,
and the result is rounded toward zero, if and only if the magnitude is at least
2^-24. -/
theorem f2F_iff (hlt : |value b| < 2 ^ 15) :
    f2F b = .ok (trunc (value b * 65536)) ↔ (2 : ℚ) ^ (-24 : ℤ) ≤ |value b| := by
  have hhigh : expo b < 142 := by
    have h15 : |value b| < (2 : ℚ) ^ (15 : ℤ) := hlt
    rw [abs_value_lt_iff (by decide)] at h15
    omega
  rw [← not_lt, abs_value_lt_iff (by decide)]
  by_cases h : expo b < 103
  · rw [f2F_shift h]
    exact ⟨fun h => (nomatch h), fun hnot => (hnot (by omega)).elim⟩
  · refine ⟨fun _ => by omega, fun _ => ?_⟩
    have hvalue : value b * 65536 = sign b * (significand b * 2 ^ scale b * 65536) := by
      unfold value
      ring
    rw [f2F_eq (by omega) hhigh, hvalue, trunc_sign_mul b (by positivity), floor_shifted (by omega)]

/-- One half. -/
theorem f2F_half : f2F 0x3f000000 = .ok (trunc (value 0x3f000000 * 65536)) := by
  have hvalue : value 0x3f000000 = 1 / 2 := by
    have hexpo : expo 0x3f000000 = 126 := by decide
    have hsig : significand 0x3f000000 = 2 ^ 23 := by decide
    have hsign : sign 0x3f000000 = 1 := by decide
    rw [value, scale, hexpo, hsig, hsign]
    norm_num
  refine (f2F_iff ?_).mpr ?_
  · rw [hvalue]
    norm_num
  · rw [hvalue]
    norm_num

/-- Zero is shifted by 134, the greatest number below 2^-24 by 32. -/
theorem f2F_shifts_too_far : value 0 = 0 ∧ f2F 0 = .error .shift ∧
    f2F 0x337fffff = .error .shift := by
  refine ⟨?_, by decide, by decide⟩
  have hsig : significand 0 = 0 := by decide
  rw [value, hsig]
  simp

end Fields

end Fixed

end Nemu
