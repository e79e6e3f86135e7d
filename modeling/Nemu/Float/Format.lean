/-
# Printing fixed-point numbers

`format_FLOAT` of `FLOAT_vfprintf.c`: the integer part, a point, and six digits of
the fraction, cut off. The sign is taken as `f & 0x80000000` and then compared
with 1, so that a negative number is never negated: what is printed after its
minus sign are the halves of its two's complement.

Key definitions: `formatFLOAT`, `fixedText`, `Printed`.
Key theorems: `formatFLOAT_eq`, `parse_textOf`, `printed_iff`.
-/
import Nemu.Lib.Bytes
import Nemu.Lib.Decimal
import Mathlib.Algebra.Order.Ring.Abs
import Mathlib.Algebra.Order.Field.Basic
import Mathlib.Tactic.FieldSimp
import Mathlib.Tactic.Linarith
import Mathlib.Tactic.Ring

namespace Nemu

namespace Fixed

open Decimal

/-- The text that `format_FLOAT` gives to `__stdio_fwrite`. -/
def formatFLOAT (f : BitVec 32) : List Char :=
  let sign := f &&& 0x80000000
  let f := if sign = 1 then ~~~f + 1 else f
  let round : BitVec 16 := (f.sshiftRight 16).setWidth 16
  let decimal := (f &&& 0x0000ffff).toNat
  let decimal := decimal * 1000000 / 65536
  if sign = 0 then digits round.toNat ++ '.' :: pad 6 (digits decimal)
  else '-' :: (digits round.toNat ++ '.' :: pad 6 (digits decimal))

/-- The text of so many 65536ths. -/
def textOf (negative : Bool) (n : ℕ) : List Char :=
  (if negative then ['-'] else []) ++
    (digits (n / 65536) ++ '.' :: pad 6 (digits (n % 65536 * 1000000 / 65536)))

/-- What it should be: a minus sign if the number is negative, the integer part of
the magnitude, and six digits of its fraction. -/
def fixedText (f : ℤ) : List Char := textOf (decide (f < 0)) f.natAbs

/-- The text is what it should be, and is read back as the number but for less than
the last digit. -/
def Printed (f : BitVec 32) : Prop :=
  formatFLOAT f = fixedText f.toInt ∧
    ∃ v, parse (formatFLOAT f) = some v ∧ |v - (f.toInt : ℚ) / 65536| < 1 / 10 ^ 6

section Format

variable {f : BitVec 32}

/-! ### The text -/

theorem and_half (f : BitVec 32) : (f &&& 0x0000ffff).toNat = f.toNat % 65536 := by
  rw [BitVec.toNat_and]
  exact Nat.and_two_pow_sub_one_eq_mod f.toNat 16

/-- The sign is zero or the top bit, and never one. -/
theorem and_sign (f : BitVec 32) : f &&& 0x80000000 ≠ 1 ∧ (f &&& 0x80000000 = 0 ↔ ¬ f.toInt < 0) := by
  have htop : f &&& 0x80000000 = if f.toInt < 0 then BitVec.twoPow 32 31 else 0#32 := by
    have hmsb : f.getLsbD 31 = decide (f.toInt < 0) := by
      rw [← BitVec.msb_eq_toInt, BitVec.msb_eq_getLsbD_last]
    rw [show (0x80000000 : BitVec 32) = BitVec.twoPow 32 31 from rfl, BitVec.and_twoPow, hmsb]
    simp
  rw [htop]
  split_ifs with h
  · exact ⟨by decide, fun h0 => absurd h0 (by decide), fun hnot => (hnot h).elim⟩
  · exact ⟨by decide, fun _ => h, fun _ => rfl⟩

/-- **What is printed**: the sign, and the bits read as a number without one. -/
theorem formatFLOAT_eq (f : BitVec 32) : formatFLOAT f = textOf (decide (f.toInt < 0)) f.toNat := by
  obtain ⟨hone, hzero⟩ := and_sign f
  unfold formatFLOAT
  have hround : ((f.sshiftRight 16).setWidth 16 : BitVec 16).toNat = f.toNat / 65536 := by
    rw [Bytes.toNat_sshiftRight_field f (by decide)]
    have hf := f.isLt
    omega
  simp only [if_neg hone, hround, and_half, hzero]
  by_cases h : f.toInt < 0
  · rw [if_neg (not_not.mpr h), decide_eq_true h]
    rfl
  · rw [if_pos h, decide_eq_false h]
    rfl

/-! ### Its value -/

/-- The value of the text of so many 65536ths. -/
def cut (n : ℕ) : ℚ := ((n / 65536 : ℕ) : ℚ) + ((n % 65536 * 1000000 / 65536 : ℕ) : ℚ) / 10 ^ 6

/-- Less than the last digit is cut off. -/
theorem cut_bounds (n : ℕ) : cut n ≤ n / 65536 ∧ (n : ℚ) / 65536 < cut n + 1 / 10 ^ 6 := by
  have hsplit : (n : ℚ) = 65536 * ((n / 65536 : ℕ) : ℚ) + ((n % 65536 : ℕ) : ℚ) := by
    exact_mod_cast (Nat.div_add_mod n 65536).symm
  have hle : ((n % 65536 * 1000000 / 65536 : ℕ) : ℚ) * 65536 ≤ ((n % 65536 : ℕ) : ℚ) * 1000000 := by
    exact_mod_cast Nat.div_mul_le_self (n % 65536 * 1000000) 65536
  have hlt : ((n % 65536 : ℕ) : ℚ) * 1000000 < 65536 * (((n % 65536 * 1000000 / 65536 : ℕ) : ℚ) + 1) := by
    exact_mod_cast Nat.lt_mul_div_succ (n % 65536 * 1000000) (show 0 < 65536 by decide)
  unfold cut
  rw [hsplit]
  constructor <;> linarith

/-- **The text is read back** as the magnitude, cut off, with its sign. -/
theorem parse_textOf (negative : Bool) (n : ℕ) :
    parse (textOf negative n) = some (if negative then -cut n else cut n) := by
  have hdigits : n % 65536 * 1000000 / 65536 < 10 ^ 6 := by omega
  have hpoint : parseUnsigned (digits (n / 65536) ++ '.' :: pad 6 (digits (n % 65536 * 1000000 / 65536))) =
      some (cut n) := parse_point (show 0 < 6 by decide) (n / 65536) hdigits
  cases negative with
  | true => rw [textOf, if_pos rfl, if_pos rfl, List.singleton_append, parse, hpoint, Option.map_some]
  | false =>
    rw [textOf, if_neg Bool.false_ne_true, if_neg Bool.false_ne_true, List.nil_append, parse_digits, hpoint]

/-- **Printing.** The text is right if and only if the number is not negative, or is
the least one. -/
theorem printed_iff (f : BitVec 32) : Printed f ↔ 0 ≤ f.toInt ∨ f = 0x80000000 := by
  have hf := f.isLt
  have hint := f.toInt_eq_toNat_cond
  unfold Printed
  rw [formatFLOAT_eq, parse_textOf]
  constructor
  · rintro ⟨-, v, hv, hclose⟩
    obtain rfl := Option.some.inj hv
    by_contra hnot
    rw [not_or, not_le] at hnot
    have hneg : f.toInt = (f.toNat : ℤ) - 2 ^ 32 := by
      split_ifs at hint <;> omega
    -- the bits and the magnitude would be equal, so each the half of 2^32
    have hne : f.toNat ≠ 2 ^ 31 := fun h => hnot.2 (BitVec.eq_of_toNat_eq h)
    have hval : (f.toInt : ℚ) = (f.toNat : ℚ) - 2 ^ 32 := by exact_mod_cast hneg
    obtain ⟨hle, hlt⟩ := cut_bounds f.toNat
    rw [decide_eq_true hnot.1, if_pos rfl, hval, abs_lt] at hclose
    have hhalf : (f.toNat : ℤ) < 2 ^ 31 + 1 ∧ (2 : ℤ) ^ 31 - 1 < f.toNat := by
      constructor
      · have : (f.toNat : ℚ) < 2 ^ 31 + 1 := by linarith [hclose.1]
        exact_mod_cast this
      · have : (2 : ℚ) ^ 31 - 1 < f.toNat := by linarith [hclose.2]
        exact_mod_cast this
    omega
  · intro h
    have habs : f.toNat = f.toInt.natAbs := by
      rcases h with h | rfl
      · split_ifs at hint <;> omega
      · rfl
    refine ⟨by rw [fixedText, habs], _, rfl, ?_⟩
    obtain ⟨hle, hlt⟩ := cut_bounds f.toNat
    have hmag : ((f.toInt.natAbs : ℕ) : ℚ) = |(f.toInt : ℚ)| := by
      rw [Nat.cast_natAbs, Int.cast_abs]
    rw [habs, hmag] at hle hlt
    rw [habs]
    by_cases hneg : f.toInt < 0
    · have hnegq : (f.toInt : ℚ) < 0 := by exact_mod_cast hneg
      rw [abs_of_neg hnegq] at hle hlt
      rw [decide_eq_true hneg, if_pos rfl, abs_lt]
      constructor <;> linarith
    · have hposq : (0 : ℚ) ≤ f.toInt := by exact_mod_cast not_lt.mp hneg
      rw [abs_of_nonneg hposq] at hle hlt
      rw [decide_eq_false hneg, if_neg Bool.false_ne_true, abs_lt]
      constructor <;> linarith

/-- The samples of the test program: 1.199996 is printed, -1.199996 is not. -/
theorem formatFLOAT_samples : formatFLOAT 0x00013333 = "1.199996".toList ∧
    fixedText (0xfffecccd : BitVec 32).toInt = "-1.199996".toList ∧
    formatFLOAT 0xfffecccd = "-65534.800003".toList ∧ ¬ Printed 0xfffecccd := by
  refine ⟨by decide, by decide, by decide, fun h => ?_⟩
  exact absurd h.1 (by decide)

end Format

end Fixed

end Nemu
