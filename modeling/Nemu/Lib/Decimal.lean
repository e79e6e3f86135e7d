/-
# Decimal numbers as text

Numbers as `printf` writes them, with and without padding, and the value of a text
of digits, of which one reads back what was written. A number with a point has
the value of the digits before it and of those after it as a fraction.

Key definitions: `digits`, `pad`, `value`, `parse`.
Key theorems: `value_digits`, `value_pad`, `parse_point`.
-/
import Mathlib.Algebra.Order.Field.Rat
import Mathlib.Data.Nat.Notation
import Mathlib.Data.Rat.Defs
import Mathlib.Tactic.IntervalCases
import Mathlib.Tactic.NormNum

namespace Decimal

/-- `%u`. -/
def digits (n : ℕ) : List Char := Nat.toDigits 10 n

/-- Zeros in front, up to the width. -/
def pad (width : ℕ) (s : List Char) : List Char := List.replicate (width - s.length) '0' ++ s

/-- One more digit. -/
def push (v : ℕ) (c : Char) : Option ℕ := if c.isDigit then some (10 * v + (c.toNat - 48)) else none

/-- The value of digits. -/
def value (s : List Char) : Option ℕ := s.foldlM push 0

/-- A number without a sign: digits, a point and digits. -/
def parseUnsigned (s : List Char) : Option ℚ := do
  let i ← value (s.takeWhile (· ≠ '.'))
  match s.dropWhile (· ≠ '.') with
  | '.' :: t => do
    let f ← value t
    return i + f / 10 ^ t.length
  | _ => none

/-- The value of the text of a number. -/
def parse : List Char → Option ℚ
  | '-' :: s => (parseUnsigned s).map (-·)
  | s => parseUnsigned s

theorem push_digitChar {d : ℕ} (hd : d < 10) (v : ℕ) : push v d.digitChar = some (10 * v + d) := by
  have hdigit : d.digitChar.isDigit = true := by
    interval_cases d <;> rfl
  rw [push, if_pos hdigit, Nat.toNat_digitChar_sub_48_of_lt_ten hd]

/-- **Digits** are read back. -/
theorem value_digits (n : ℕ) : value (digits n) = some n := by
  induction n using Nat.strongRecOn with
  | ind n ih =>
    unfold value digits at *
    rw [Nat.toDigits_eq_if (by decide)]
    split_ifs with h
    · simp [push_digitChar h]
    · have hlast := push_digitChar (Nat.mod_lt n (show 0 < 10 by decide)) (n / 10)
      rw [List.foldlM_append, ih (n / 10) (Nat.div_lt_self (by omega) (by decide))]
      simp only [Option.bind_eq_bind, Option.bind_some, List.foldlM_cons, List.foldlM_nil, hlast]
      have hsplit : 10 * (n / 10) + n % 10 = n := Nat.div_add_mod n 10
      rw [hsplit]
      rfl

/-- Zeros in front do not count. -/
theorem value_pad (width n : ℕ) : value (pad width (digits n)) = some n := by
  have hzeros : ∀ k, (List.replicate k '0').foldlM push 0 = some 0 := by
    intro k
    induction k with
    | zero => rfl
    | succ k ih =>
      rw [List.replicate_succ, List.foldlM_cons]
      exact ih
  unfold value pad
  rw [List.foldlM_append, hzeros]
  exact value_digits n

theorem length_pad {width n : ℕ} (hwidth : 0 < width) (hn : n < 10 ^ width) :
    (pad width (digits n)).length = width := by
  have hle : (digits n).length ≤ width := (Nat.length_toDigits_le_iff (by decide) hwidth).mpr hn
  rw [pad, List.length_append, List.length_replicate]
  omega

theorem digits_ne {c' : Char} (hc' : c'.isDigit = false) (n : ℕ) : ∀ c ∈ digits n, c ≠ c' := by
  rintro c hc rfl
  have hdigit := Nat.isDigit_of_mem_toDigits (by decide) (by decide) hc
  rw [hc'] at hdigit
  exact Bool.false_ne_true hdigit

/-- **A number with a point** is read back. -/
theorem parse_point {width : ℕ} (hwidth : 0 < width) (i : ℕ) {f : ℕ} (hf : f < 10 ^ width) :
    parseUnsigned (digits i ++ '.' :: pad width (digits f)) = some ((i : ℚ) + (f : ℚ) / 10 ^ width) := by
  have hall : ∀ c ∈ digits i, decide (c ≠ '.') = true := fun c hc => decide_eq_true (digits_ne (by decide) i c hc)
  unfold parseUnsigned
  rw [List.takeWhile_append_of_pos hall, List.dropWhile_append_of_pos hall,
    List.takeWhile_cons_of_neg (by decide), List.dropWhile_cons_of_neg (by decide), List.append_nil,
    value_digits, Option.bind_eq_bind, Option.bind_some]
  simp only [value_pad, length_pad hwidth hf, Option.bind_some]
  rfl

/-- Without a sign. -/
theorem parse_digits (i : ℕ) (s : List Char) : parse (digits i ++ s) = parseUnsigned (digits i ++ s) := by
  obtain ⟨c, l, hc⟩ : ∃ c l, digits i = c :: l := List.exists_cons_of_ne_nil Nat.toDigits_ne_nil
  have hne : c ≠ '-' := digits_ne (by decide) i c (hc ▸ List.mem_cons_self ..)
  rw [hc, List.cons_append, parse]
  exact fun t h => hne (List.cons.inj h).1

end Decimal
