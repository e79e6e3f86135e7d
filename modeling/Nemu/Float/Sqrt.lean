/-
# The fixed-point square root

`sqrt` of `FLOAT.c`: Newton's iteration from 2.0, until a step is not longer than
10^-4. From the second iterate on the iterates are less than one unit below the
root, so that the quotient is at most two units more than the iterate: a step
that is not the last one goes down. Where the steps are short the iterate is
near the root.

Key definitions: `sqrtBody`, `sqrt`, `AboveRoot`.
Key theorems: `sqrtBody_eq`, `sqrtBody_round`, `sqrt_near`.
-/
import Nemu.Float.Convert
import Nemu.Lib.DoWhile
import Nemu.Lib.Newton
import Mathlib.Analysis.Real.Sqrt

namespace Nemu

namespace Fixed

open DoWhile

/-- `Fabs`. -/
def fabs (a : ℤ) : Except Trouble ℤ := if a < 0 then int (-a) else .ok a

/-- `int2F`. -/
def int2F (a : ℤ) : Except Trouble ℤ := shiftLeft a 16

/-- `F_div_int`. -/
def fDivInt (a b : ℤ) : Except Trouble ℤ := quot a b

/-- `f2F(1e-4)`. -/
def epsilon : Except Trouble ℤ := f2F 0x38d1b717

/-- The body of the loop of `sqrt`, and the test at its end. -/
def sqrtBody (x t : ℤ) : Except Trouble (Bool × ℤ) := do
  let q ← fDivF x t
  let d ← int (q - t)
  let dt ← fDivInt d 2
  let t ← int (t + dt)
  let a ← fabs dt
  let e ← epsilon
  return (decide (a > e), t)

/-- `sqrt`, with at most so many rounds. -/
def sqrt (rounds : ℕ) (x : ℤ) : Except Trouble (Option ℤ) := do
  let t ← int2F 2
  doWhile (sqrtBody x) rounds t

theorem epsilon_eq : epsilon = .ok 6 := by decide

theorem int2F_two : int2F 2 = .ok 131072 := by decide

theorem fabs_ok {a : ℤ} (h : IsInt a) (hmin : a ≠ -2 ^ 31) : fabs a = .ok |a| := by
  unfold fabs
  by_cases hneg : a < 0
  · rw [if_pos hneg, abs_of_neg hneg, int_ok (by unfold IsInt at *; omega)]
  · rw [if_neg hneg, abs_of_nonneg (by omega)]

section Sqrt

variable {x t : ℕ}

/-- A quotient rounded down, as an integer. -/
theorem floor_quotient (n : ℕ) (h0 : 0 < t) :
    ((n / t : ℕ) : ℤ) * t ≤ n ∧ (n : ℤ) < t * (((n / t : ℕ) : ℤ) + 1) := by
  have hle := Nat.div_mul_le_self n t
  have hlt := Nat.lt_mul_div_succ n h0
  generalize n / t = q at hle hlt ⊢
  exact ⟨by exact_mod_cast hle, by exact_mod_cast hlt⟩

/-- The `n`-th part of the way from `t` to `q`, rounded toward zero. -/
theorem part_step {n : ℤ} (hn : 0 < n) (q t : ℤ) :
    (t ≤ q → n * (q - t).tdiv n ≤ q - t ∧ q - t < n * (q - t).tdiv n + n) ∧
      (q < t → n * (q - t).tdiv n - n < q - t ∧ q - t ≤ n * (q - t).tdiv n) := by
  refine ⟨fun h => ⟨Int.mul_tdiv_self_le (by omega), Int.lt_mul_tdiv_self_add hn⟩, fun h => ?_⟩
  have hle : n * (t - q).tdiv n ≤ t - q := Int.mul_tdiv_self_le (by omega)
  have hlt : t - q < n * (t - q).tdiv n + n := Int.lt_mul_tdiv_self_add hn
  have hneg : (q - t).tdiv n = -(t - q).tdiv n := by rw [← Int.neg_tdiv, neg_sub]
  rw [hneg, mul_neg]
  omega

/-- **The end of a round** goes a part of the way to the quotient and compares it with
10^-4. Nothing overflows. -/
theorem advance_eq {n q t d : ℤ} (hn : 0 < n) (hq0 : 0 ≤ q) (hq : q ≤ 2 ^ 30) (ht0 : 0 < t) (ht : t ≤ 2 ^ 30)
    (hd : d = (q - t).tdiv n) :
    (do
      let dt ← int (q - t)
      let dt ← quot dt n
      let u ← int (t + dt)
      let a ← fabs dt
      let e ← epsilon
      return (decide (a > e), u)) = Except.ok (decide (6 < |d|), t + d) := by
  have hle := Int.natAbs_tdiv_le_natAbs (q - t) n
  rw [← hd] at hle
  have hback : q < t → d ≤ 0 := by
    intro h
    rw [hd, ← neg_sub, Int.neg_tdiv]
    exact neg_nonpos.mpr (Int.tdiv_nonneg (by omega) hn.le)
  have hint : IsInt (q - t) := by
    unfold IsInt
    omega
  have hd' : IsInt d ∧ d ≠ -2 ^ 31 := by
    unfold IsInt
    omega
  have hsum : IsInt (t + d) := by
    unfold IsInt
    omega
  rw [int_ok hint, ok_bind, quot_ok hn.ne' (hd ▸ hd'.1), ok_bind, ← hd, int_ok hsum, ok_bind, fabs_ok hd'.1 hd'.2,
    ok_bind, epsilon_eq, ok_bind]
  rfl

/-- **A round**, where nothing overflows. -/
theorem sqrtBody_eq {d : ℤ} (hx : x < 2 ^ 31) (h0 : 0 < t) (ht : t ≤ 2 ^ 30) (hq : x * 65536 / t ≤ 2 ^ 30)
    (hd : d = (((x * 65536 / t : ℕ) : ℤ) - t).tdiv 2) : sqrtBody x t = .ok (decide (6 < |d|), t + d) := by
  have hdiv := fDivF_of_nonneg hx h0 (by omega) (roomy_of_le h0 ht x 0 16) (by omega)
  unfold sqrtBody fDivInt
  rw [hdiv, ok_bind]
  exact advance_eq (by decide) (Int.natCast_nonneg _) (by exact_mod_cast hq) (by omega) (by omega) hd

/-- The quotient of an iterate that is not a unit below the root. -/
theorem quotient_le {S q t : ℤ} (hq : q * t ≤ S) (ht : 1 ≤ t) (hS : S < (t + 1) ^ 2) : q ≤ t + 2 := by
  by_contra h
  have hle : (t + 3) * t ≤ q * t := mul_le_mul_of_nonneg_right (by omega) (by omega)
  have h1 : (t + 3) * t = (t + 1) ^ 2 + t - 1 := by ring
  omega

/-- An iterate: the first one, or one that is not a unit below the root. -/
structure Iterate (x : ℕ) (t : ℤ) : Prop where
  pos : 1 ≤ t
  le : t ≤ 2 ^ 30 - 2
  above : t = 131072 ∨ 65536 * (x : ℤ) < (t + 1) ^ 2

/-- The result: near the root on both sides. -/
structure NearRoot (x : ℕ) (t : ℤ) : Prop where
  pos : 1 ≤ t
  above : 65536 * (x : ℤ) < (t + 1) ^ 2
  below : t ≤ 16 ∨ (t - 16) ^ 2 ≤ 65536 * (x : ℤ)

/-- The iterate, unless it is a unit or more below the root. -/
def sqrtMeasure (x : ℕ) (t : ℤ) : ℕ := if 65536 * (x : ℤ) < (t + 1) ^ 2 then t.toNat else 2 ^ 31

/-- **Every round** but the last goes down, and the last one ends near the root. -/
theorem sqrtBody_round {t : ℤ} (hx : x < 2 ^ 31) (h : Iterate x t) : ∃ u,
    (sqrtBody x t = .ok (true, u) ∧ Iterate x u ∧ sqrtMeasure x u < sqrtMeasure x t) ∨
      (sqrtBody x t = .ok (false, u) ∧ NearRoot x u) := by
  obtain ⟨hpos, hle, habove⟩ := h
  lift t to ℕ using (by omega)
  have h0 : 0 < t := by omega
  -- the quotient
  obtain ⟨hqle, hqlt⟩ := floor_quotient (x * 65536) h0
  have hS : ((x * 65536 : ℕ) : ℤ) = 65536 * (x : ℤ) := by
    push_cast
    ring
  rw [hS] at hqle hqlt
  have hq0 : (0 : ℤ) ≤ ((x * 65536 / t : ℕ) : ℤ) := Int.natCast_nonneg _
  have hqbound : ((x * 65536 / t : ℕ) : ℤ) ≤ 2 ^ 30 := by
    rcases habove with heq | habove
    · rw [heq] at hqle
      omega
    · have := quotient_le hqle hpos habove
      omega
  have hround := sqrtBody_eq (d := (((x * 65536 / t : ℕ) : ℤ) - t).tdiv 2) hx h0 (by omega) (by omega) rfl
  have hstep := part_step (n := 2) (by decide) ((x * 65536 / t : ℕ) : ℤ) t
  generalize ((x * 65536 / t : ℕ) : ℤ) = q at *
  generalize (q - t).tdiv 2 = d at *
  -- the new iterate is not a unit below the root
  have hu : 65536 * (x : ℤ) < (t + d + 1) ^ 2 := Newton.sq_step hqlt (by omega) (by omega)
  have hupos : 1 ≤ t + d := by omega
  refine ⟨t + d, ?_⟩
  by_cases hlong : 6 < |d|
  · rw [decide_eq_true hlong] at hround
    left
    have hdown : 65536 * (x : ℤ) < (t + 1) ^ 2 → d ≤ -7 := by
      intro hroot
      have hq2 := quotient_le hqle hpos hroot
      rcases lt_abs.mp hlong with h | h <;> omega
    refine ⟨hround, ⟨hupos, ?_, .inr hu⟩, ?_⟩
    · rcases habove with heq | habove
      · omega
      · have := hdown habove
        omega
    · unfold sqrtMeasure
      rw [if_pos hu]
      split_ifs with hroot
      · have := hdown hroot
        omega
      · omega
  · rw [decide_eq_false hlong] at hround
    right
    refine ⟨hround, hupos, hu, ?_⟩
    have hshort : -6 ≤ d ∧ d ≤ 6 := abs_le.mp (not_lt.mp hlong)
    have hnear := Newton.sq_near (u := t + d) hqle (by omega) rfl (by omega)
    have hsq : d ^ 2 - d ≤ 42 := by nlinarith
    by_cases h16 : t + d ≤ 16
    · exact .inl h16
    · right
      have hexp : ((t : ℤ) + d - 16) ^ 2 = (t + d) ^ 2 - 32 * (t + d) + 256 := by ring
      omega

end Sqrt

/-- **The square root.** `sqrt` of any `x` that is not negative ends, without an
overflow and without a division by zero, less than 16 units from the root. -/
theorem sqrt_near {x : ℤ} (hx : IsInt x) (h0 : 0 ≤ x) : ∃ t : ℤ,
    (∃ n, ∀ rounds, n < rounds → sqrt rounds x = .ok (some t)) ∧
      |(t : ℝ) - Real.sqrt (65536 * x)| ≤ 16 := by
  lift x to ℕ using h0
  have hlt : x < 2 ^ 31 := by
    unfold IsInt at hx
    omega
  have hfirst : Iterate x 131072 := ⟨by decide, by decide, .inl rfl⟩
  obtain ⟨t, hroot, hend⟩ := doWhile_total (fun s hs => sqrtBody_round hlt hs) hfirst
  refine ⟨t, ⟨sqrtMeasure x 131072, fun rounds hn => ?_⟩, ?_⟩
  · rw [sqrt, int2F_two, ok_bind]
    exact hend rounds hn
  · have hpos : (1 : ℝ) ≤ t := by exact_mod_cast hroot.pos
    have habove : (65536 * (x : ℝ)) < (t + 1) ^ 2 := by exact_mod_cast hroot.above
    push_cast
    rw [abs_le]
    constructor
    · have hle : Real.sqrt (65536 * x) ≤ t + 1 := Real.sqrt_le_iff.mpr ⟨by linarith, habove.le⟩
      linarith
    · rcases hroot.below with h16 | hbelow
      · have hle : (t : ℝ) ≤ 16 := by exact_mod_cast h16
        have := Real.sqrt_nonneg (65536 * x)
        linarith
      · have hsq : ((t : ℝ) - 16) ^ 2 ≤ 65536 * x := by exact_mod_cast hbelow
        have := Real.le_sqrt_of_sq_le hsq
        linarith

/-- The root of 2.0. -/
theorem sqrt_near_two : ∃ t : ℤ, (∃ n, ∀ rounds, n < rounds → sqrt rounds 131072 = .ok (some t)) ∧
    |(t : ℝ) - Real.sqrt (65536 * (131072 : ℤ))| ≤ 16 := sqrt_near (by decide) (by decide)

end Fixed

end Nemu
