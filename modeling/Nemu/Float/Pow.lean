/-
# The fixed-point cube root

`pow` of `FLOAT.c` ignores its second argument and computes a cube root: Newton's
iteration from 2.0 with the quotient of `x` by the square of the iterate. The
square is cut to 65536ths before it divides, so that it vanishes where the
iterate is less than 1/256: for `x = 0` the iterates go down to there. For a
large `x` the first step goes so far that the square is no `int`, or too large a
divisor for `F_div_F` (`Fits`); the iterates after that are smaller.

For every other `x` the iteration ends near the root: from 12 units on a step
that is not the last one goes down; below, the loop is run.

Key definitions: `powBody`, `pow`, `secondIterate`, `Fits`.
Key theorems: `powBody_eq`, `powBody_round`, `pow_iff`.
-/
import Nemu.Float.Sqrt
import Mathlib.Analysis.SpecialFunctions.Pow.Real
import Mathlib.Algebra.Order.Ring.Abs

namespace Nemu

namespace Fixed

open DoWhile

/-- The body of the loop of `pow`, and the test at its end. -/
def powBody (x t : ℤ) : Except Trouble (Bool × ℤ) := do
  let t2 ← fMulF t t
  let q ← fDivF x t2
  let d ← int (q - t)
  let dt ← quot d 3
  let t ← int (t + dt)
  let a ← fabs dt
  let e ← epsilon
  return (decide (a > e), t)

/-- `pow`, with at most so many rounds. -/
def pow (rounds : ℕ) (x _y : ℤ) : Except Trouble (Option ℤ) := do
  let t ← int2F 2
  doWhile (powBody x) rounds t

/-! ### A round -/

section Round

variable {x t : ℕ}

/-- The square fits, and has room as a divisor. -/
structure Fits (x t : ℕ) : Prop where
  lt : t * t / 65536 < 2 ^ 31
  room : Roomy x (t * t / 65536) 0 16

theorem fMulF_self (t : ℕ) : fMulF t t = int ((t * t / 65536 : ℕ) : ℤ) := by
  unfold fMulF
  congr 1
  rw [Int.fdiv_eq_ediv_of_nonneg _ (by norm_num), ← Nat.cast_mul, Int.natCast_ediv]
  rfl

theorem fits_of_le (hpos : 256 ≤ t) (ht : t ≤ 2 ^ 23) : Fits x t := by
  have hlow : 256 * 256 ≤ t * t := Nat.mul_le_mul hpos hpos
  have hhigh : t * t ≤ 2 ^ 23 * 2 ^ 23 := Nat.mul_le_mul ht ht
  exact ⟨by omega, roomy_of_le (by omega) (by omega) x 0 16⟩

/-- **A round**, where nothing overflows. -/
theorem powBody_eq {d : ℤ} (hx : x < 2 ^ 31) (hpos : 256 ≤ t) (ht : t ≤ 2 ^ 30) (hfits : Fits x t)
    (hq : x * 65536 / (t * t / 65536) ≤ 2 ^ 30)
    (hd : d = (((x * 65536 / (t * t / 65536) : ℕ) : ℤ) - t).tdiv 3) :
    powBody x t = .ok (decide (6 < |d|), t + d) := by
  have hlow : 256 * 256 ≤ t * t := Nat.mul_le_mul hpos hpos
  have hsquare : fMulF t t = .ok ((t * t / 65536 : ℕ) : ℤ) := by
    have hlt := hfits.lt
    rw [fMulF_self]
    generalize t * t / 65536 = p at hlt ⊢
    exact int_ok (by unfold IsInt; omega)
  have hdiv := fDivF_of_nonneg hx (by omega) hfits.lt hfits.room (by omega)
  unfold powBody
  rw [hsquare, ok_bind, hdiv, ok_bind]
  exact advance_eq (by decide) (Int.natCast_nonneg _) (by exact_mod_cast hq) (by omega) (by omega) hd

/-- A square that does not fit, or has no room as a divisor, overflows. -/
theorem powBody_error (hx : x < 2 ^ 31) (hpos : 256 ≤ t) (hfits : ¬ Fits x t) :
    powBody x t = .error .overflow := by
  have hlow : 256 * 256 ≤ t * t := Nat.mul_le_mul hpos hpos
  unfold powBody
  rw [fMulF_self]
  by_cases hlt : t * t / 65536 < 2 ^ 31
  · have hroom : ¬ Roomy x (t * t / 65536) 0 16 := fun h => hfits ⟨hlt, h⟩
    have hdiv := fDivF_error hx (by omega) hlt hroom
    have hint : IsInt ((t * t / 65536 : ℕ) : ℤ) := by
      generalize t * t / 65536 = p at hlt
      unfold IsInt
      omega
    rw [int_ok hint, ok_bind, hdiv, error_bind]
  · have hint : ¬ IsInt ((t * t / 65536 : ℕ) : ℤ) := by
      generalize t * t / 65536 = p at hlt
      unfold IsInt
      omega
    rw [int_error hint, error_bind]

/-- The quotient of a round: `R / t²` rounded down, or somewhat more as the square
was cut. -/
structure Quotient (R t q : ℤ) : Prop where
  nonneg : 0 ≤ q
  lt : R < t ^ 2 * (q + 1)
  le : q * (t ^ 2 - 65535) ≤ R

theorem quotient_of_square (hpos : 256 ≤ t) :
    Quotient (2 ^ 32 * (x : ℤ)) t ((x * 65536 / (t * t / 65536) : ℕ) : ℤ) := by
  have hlow : 256 * 256 ≤ t * t := Nat.mul_le_mul hpos hpos
  have hp : 0 < t * t / 65536 := by omega
  obtain ⟨hqle, hqlt⟩ := floor_quotient (x * 65536) hp
  obtain ⟨hple, hplt⟩ := floor_quotient (t := 65536) (t * t) (by decide)
  have hq0 : (0 : ℤ) ≤ ((x * 65536 / (t * t / 65536) : ℕ) : ℤ) := Int.natCast_nonneg _
  have hp0 : (0 : ℤ) < ((t * t / 65536 : ℕ) : ℤ) := by exact_mod_cast hp
  generalize ((x * 65536 / (t * t / 65536) : ℕ) : ℤ) = q at *
  generalize ((t * t / 65536 : ℕ) : ℤ) = p at *
  push_cast at *
  refine ⟨hq0, ?_, ?_⟩
  · calc (2 : ℤ) ^ 32 * x = 65536 * (x * 65536) := by ring
      _ < 65536 * (p * (q + 1)) := by linarith
      _ = p * 65536 * (q + 1) := by ring
      _ ≤ t * t * (q + 1) := mul_le_mul_of_nonneg_right hple (by omega)
      _ = t ^ 2 * (q + 1) := by ring
  · have hcut : (t : ℤ) ^ 2 - 65535 ≤ 65536 * p := by
      have hsq : (t : ℤ) ^ 2 = t * t := sq (t : ℤ)
      omega
    calc q * ((t : ℤ) ^ 2 - 65535) ≤ q * (65536 * p) := mul_le_mul_of_nonneg_left hcut hq0
      _ = 65536 * (q * p) := by ring
      _ ≤ 65536 * (x * 65536) := by linarith
      _ = 2 ^ 32 * x := by ring

/-- Where the iterate is not a unit below the root and not too small, the quotient
is not much more than the iterate. -/
theorem Quotient.le_add {R t q : ℤ} (h : Quotient R t q) (ht : 3700 ≤ t) (hR : R < (t + 1) ^ 3) :
    q ≤ t + 20 := by
  by_contra hq
  have hsq : 0 ≤ t ^ 2 - 65535 := by nlinarith
  have hle : (t + 21) * (t ^ 2 - 65535) ≤ q * (t ^ 2 - 65535) := mul_le_mul_of_nonneg_right (by omega) hsq
  have hexp : (t + 21) * (t ^ 2 - 65535) = (t + 1) ^ 3 + (18 * t - 65538) * t - 1376236 := by ring
  have hlast : 1376236 ≤ (18 * t - 65538) * t := by nlinarith
  have := h.le
  omega

/-- Near the cube root of `R`, on both sides. -/
structure NearCube (R t : ℤ) : Prop where
  above : R < (t + 1) ^ 3
  below : t ≤ 1023 ∨ (t - 1023) ^ 3 ≤ R

/-- A step that is short ends near the root. -/
theorem Quotient.near {R t q d : ℤ} (h : Quotient R t q) (ht : 256 ≤ t)
    (hd : d = (q - t).tdiv 3) (hshort : |d| ≤ 6) : NearCube R (t + d) := by
  have hthird := part_step (n := 3) (by decide) q t
  rw [← hd] at hthird
  have hq := h.nonneg
  obtain ⟨hlow, hhigh⟩ := abs_le.mp hshort
  refine ⟨Newton.cube_step h.lt (by omega) hq (by omega), ?_⟩
  by_cases hsmall : t + d ≤ 1023
  · exact .inl hsmall
  · right
    have hsq : 0 ≤ t ^ 2 - 65535 := by nlinarith
    have h0 : 0 ≤ t + d - 1023 := by omega
    have hsquare : (t + d - 1023) ^ 2 ≤ t ^ 2 - 65535 := by nlinarith
    calc (t + d - 1023) ^ 3 = (t + d - 1023) * (t + d - 1023) ^ 2 := by ring
      _ ≤ q * (t ^ 2 - 65535) := mul_le_mul (by omega) hsquare (sq_nonneg _) hq
      _ ≤ R := h.le

end Round

/-! ### The iteration -/

section Rounds

variable {x : ℕ}

/-- A step from an iterate. -/
theorem powBody_step {t : ℕ} (hx : x < 2 ^ 31) (hpos : 256 ≤ t) (ht : t ≤ 2 ^ 30) (hfits : Fits x t)
    (hq : x * 65536 / (t * t / 65536) ≤ 2 ^ 30) : ∃ q d : ℤ, Quotient (2 ^ 32 * (x : ℤ)) t q ∧
      q = ((x * 65536 / (t * t / 65536) : ℕ) : ℤ) ∧ d = (q - t).tdiv 3 ∧
      powBody x t = .ok (decide (6 < |d|), t + d) ∧ 2 ^ 32 * (x : ℤ) < (t + d + 1) ^ 3 ∧
      (¬ 6 < |d| → NearCube (2 ^ 32 * (x : ℤ)) (t + d)) := by
  have hquot := quotient_of_square (x := x) hpos
  have hround := powBody_eq hx hpos ht hfits hq rfl
  have hthird := part_step (n := 3) (by decide) ((x * 65536 / (t * t / 65536) : ℕ) : ℤ) t
  have hq0 := hquot.nonneg
  refine ⟨_, _, hquot, rfl, rfl, hround, ?_, fun hshort => ?_⟩
  · exact Newton.cube_step hquot.lt (by omega) hq0 (by omega)
  · exact hquot.near (by omega) rfl (not_lt.mp hshort)

/-- An iterate that is not a unit below the root is not small. -/
theorem root_ge (h12 : 12 ≤ x) {t : ℤ} (hR : 2 ^ 32 * (x : ℤ) < (t + 1) ^ 3) : 3700 ≤ t := by
  by_contra h
  have hle : (t + 1) ^ 3 ≤ 3700 ^ 3 := (Odd.pow_le_pow (by decide)).mpr (by omega)
  omega

/-- **Every round** from a settled iterate but the last goes down, and the last one
ends near the root. -/
theorem powBody_round (hx : x < 2 ^ 31) (h12 : 12 ≤ x) {t : ℤ}
    (h : t ≤ 2 ^ 23 ∧ 2 ^ 32 * (x : ℤ) < (t + 1) ^ 3) : ∃ u,
    (powBody x t = .ok (true, u) ∧ (u ≤ 2 ^ 23 ∧ 2 ^ 32 * (x : ℤ) < (u + 1) ^ 3) ∧ u.toNat < t.toNat) ∨
      (powBody x t = .ok (false, u) ∧ NearCube (2 ^ 32 * (x : ℤ)) u) := by
  obtain ⟨hle, hR⟩ := h
  have hge := root_ge h12 hR
  lift t to ℕ using (by omega)
  have hbound := (quotient_of_square (x := x) (show 256 ≤ t by omega)).le_add (by omega) hR
  obtain ⟨q, d, -, rfl, hd, hround, hu, hnear⟩ :=
    powBody_step hx (by omega) (by omega) (fits_of_le (x := x) (t := t) (by omega) (by omega)) (by omega)
  have hthird := part_step (n := 3) (by decide) ((x * 65536 / (t * t / 65536) : ℕ) : ℤ) t
  rw [← hd] at hthird
  refine ⟨t + d, ?_⟩
  by_cases hlong : 6 < |d|
  · rw [decide_eq_true hlong] at hround
    have hdown : d ≤ -7 := by
      rcases lt_abs.mp hlong with h | h <;> omega
    have hpos := root_ge h12 hu
    exact .inl ⟨hround, ⟨by omega, hu⟩, by omega⟩
  · rw [decide_eq_false hlong] at hround
    exact .inr ⟨hround, hnear hlong⟩

/-- What the first step comes to, from 2.0. -/
def secondIterate (x : ℤ) : ℤ := 131072 + (x / 4 - 131072).tdiv 3

/-- **The first round.** -/
theorem powBody_first (hx : x < 2 ^ 31) : ∃ d : ℤ, secondIterate x = 131072 + d ∧
    powBody x 131072 = .ok (decide (6 < |d|), secondIterate x) ∧
    2 ^ 32 * (x : ℤ) < (secondIterate x + 1) ^ 3 ∧
    (¬ 6 < |d| → NearCube (2 ^ 32 * (x : ℤ)) (secondIterate x)) := by
  have hquarter : x * 65536 / (131072 * 131072 / 65536) = x / 4 := by
    rw [show 131072 * 131072 / 65536 = 4 * 65536 from rfl]
    exact Nat.mul_div_mul_right x 4 (by decide)
  obtain ⟨q, d, -, hq, hd, hround, hu, hnear⟩ := powBody_step (x := x) (t := 131072) hx (by decide)
    (by decide) (fits_of_le (by decide) (by decide)) (by rw [hquarter]; omega)
  have hsecond : secondIterate x = 131072 + d := by
    rw [secondIterate, hd, hq, hquarter]
    push_cast
    rfl
  rw [hsecond]
  exact ⟨d, rfl, hround, hu, hnear⟩

theorem secondIterate_bounds (hx : x < 2 ^ 31) : 256 ≤ secondIterate x ∧ secondIterate x ≤ 2 ^ 29 ∧
    (x : ℤ) ≤ 12 * secondIterate x := by
  have hthird := part_step (n := 3) (by decide) ((x : ℤ) / 4) 131072
  unfold secondIterate
  omega

/-- **The second round** from an iterate that fits comes to one that is settled, or
ends near the root. -/
theorem powBody_second (hx : x < 2 ^ 31) (h12 : 12 ≤ x) {t : ℕ} (ht : (t : ℤ) = secondIterate x)
    (hR : 2 ^ 32 * (x : ℤ) < ((t : ℤ) + 1) ^ 3) (hfits : Fits x t) : ∃ u,
    (powBody x t = .ok (true, u) ∧ u ≤ 2 ^ 23 ∧ 2 ^ 32 * (x : ℤ) < (u + 1) ^ 3) ∨
      (powBody x t = .ok (false, u) ∧ NearCube (2 ^ 32 * (x : ℤ)) u) := by
  have hge := root_ge h12 hR
  obtain ⟨-, hle, hx12⟩ := secondIterate_bounds hx
  rw [← ht] at hle hx12
  have hquot := quotient_of_square (x := x) (show 256 ≤ t by omega)
  have hbound := hquot.le_add (by omega) hR
  obtain ⟨q, d, -, rfl, hd, hround, hu, hnear⟩ :=
    powBody_step hx (show 256 ≤ t by omega) (by omega) hfits (by omega)
  have hthird := part_step (n := 3) (by decide) ((x * 65536 / (t * t / 65536) : ℕ) : ℤ) t
  rw [← hd] at hthird
  refine ⟨t + d, ?_⟩
  by_cases hlong : 6 < |d|
  · rw [decide_eq_true hlong] at hround
    have hdown : d ≤ -7 := by
      rcases lt_abs.mp hlong with h | h <;> omega
    refine .inl ⟨hround, ?_, hu⟩
    by_cases hsmall : (t : ℤ) ≤ 2 ^ 23
    · omega
    · -- from a large iterate the step goes a third of the way down
      have htop : (t : ℤ) < 11863284 := by
        by_contra h
        have hsq : 11863284 * 11863284 ≤ t * t := Nat.mul_le_mul (by omega) (by omega)
        have := hfits.lt
        omega
      have hq : ((x * 65536 / (t * t / 65536) : ℕ) : ℤ) < 2 ^ 14 := by
        by_contra h
        have hle := hquot.le
        have hsq : (0 : ℤ) ≤ (t : ℤ) ^ 2 - 65535 := by nlinarith
        have hmul : 2 ^ 14 * ((t : ℤ) ^ 2 - 65535) ≤ 2 ^ 32 * (12 * t) := by
          calc 2 ^ 14 * ((t : ℤ) ^ 2 - 65535)
              ≤ ((x * 65536 / (t * t / 65536) : ℕ) : ℤ) * ((t : ℤ) ^ 2 - 65535) :=
                mul_le_mul_of_nonneg_right (by omega) hsq
            _ ≤ 2 ^ 32 * (x : ℤ) := hle
            _ ≤ 2 ^ 32 * (12 * t) := by omega
        nlinarith
      omega
  · rw [decide_eq_false hlong] at hround
    exact .inr ⟨hround, hnear hlong⟩

/-- The loop ended near the cube root. -/
def endsNear (x : ℕ) : Except Trouble (Option ℤ) → Bool
  | .ok (some t) => decide (2 ^ 32 * (x : ℤ) < (t + 1) ^ 3 ∧ (t - 1023) ^ 3 ≤ 2 ^ 32 * (x : ℤ))
  | _ => false

theorem endsNear_iff {o : Except Trouble (Option ℤ)} (h : endsNear x o = true) :
    ∃ t, o = .ok (some t) ∧ NearCube (2 ^ 32 * (x : ℤ)) t := by
  match o with
  | .ok (some t) =>
    have hnear := of_decide_eq_true h
    exact ⟨t, rfl, hnear.1, .inr hnear.2⟩
  | .ok none => exact absurd h Bool.false_ne_true
  | .error e => exact absurd h Bool.false_ne_true

/-- The smallest operands, one by one. -/
theorem pow_small : ∀ x < 12, 0 < x → endsNear x (doWhile (powBody x) 16 131072) = true := by
  decide +kernel

/-- **The loop ends** near the root of an operand that is not zero, if the second
iterate fits. -/
theorem powLoop_near (hx : x < 2 ^ 31) (h0 : x ≠ 0) (hfits : Fits x (secondIterate x).toNat) :
    ∃ t, NearCube (2 ^ 32 * (x : ℤ)) t ∧
      ∃ n, ∀ rounds, n < rounds → doWhile (powBody x) rounds 131072 = .ok (some t) := by
  by_cases h12 : 12 ≤ x
  · obtain ⟨d, hd, hround, hR, hnear⟩ := powBody_first hx
    obtain ⟨hpos, -, -⟩ := secondIterate_bounds hx
    obtain ⟨t, ht⟩ : ∃ t : ℕ, (t : ℤ) = secondIterate x := ⟨(secondIterate x).toNat, by omega⟩
    by_cases hlong : 6 < |d|
    · rw [decide_eq_true hlong] at hround
      rw [← ht, Int.toNat_natCast] at hfits
      rw [← ht] at hround hR
      obtain ⟨u, ⟨hsecond, hle, hu⟩ | ⟨hsecond, hu⟩⟩ := powBody_second hx h12 ht hR hfits
      · obtain ⟨v, hv, hend⟩ := doWhile_total (fun s hs => powBody_round hx h12 hs) ⟨hle, hu⟩
        refine ⟨v, hv, u.toNat + 2, fun rounds hn => ?_⟩
        obtain ⟨k, rfl⟩ : ∃ k, rounds = k + 1 + 1 := ⟨rounds - 2, by omega⟩
        rw [doWhile_again hround, doWhile_again hsecond]
        exact hend k (by omega)
      · refine ⟨u, hu, 1, fun rounds hn => ?_⟩
        obtain ⟨k, rfl⟩ : ∃ k, rounds = k + 1 + 1 := ⟨rounds - 2, by omega⟩
        rw [doWhile_again hround, doWhile_last hsecond]
    · rw [decide_eq_false hlong] at hround
      refine ⟨_, hnear hlong, 0, fun rounds hn => ?_⟩
      obtain ⟨k, rfl⟩ : ∃ k, rounds = k + 1 := ⟨rounds - 1, by omega⟩
      exact doWhile_last hround
  · obtain ⟨t, hrun, ht⟩ := endsNear_iff (pow_small x (by omega) (by omega))
    refine ⟨t, ht, 16, fun rounds hn => ?_⟩
    rw [doWhile_mono (n := 16) (by omega) (by rw [hrun]; exact nofun), hrun]

/-- **It does not**, otherwise. -/
theorem powLoop_error (hx : x < 2 ^ 31) (h : ¬ (x ≠ 0 ∧ Fits x (secondIterate x).toNat)) :
    ∃ e, ∀ rounds, 20 ≤ rounds → doWhile (powBody x) rounds 131072 = .error e := by
  by_cases h0 : x = 0
  · subst h0
    have hrun : doWhile (powBody (0 : ℕ)) 20 131072 = .error .divZero := by decide +kernel
    refine ⟨.divZero, fun rounds hn => ?_⟩
    rw [doWhile_mono hn (by rw [hrun]; exact nofun), hrun]
  · have hfits : ¬ Fits x (secondIterate x).toNat := fun hf => h ⟨h0, hf⟩
    obtain ⟨d, hd, hround, -, -⟩ := powBody_first hx
    obtain ⟨hpos, -, -⟩ := secondIterate_bounds hx
    obtain ⟨t, ht⟩ : ∃ t : ℕ, (t : ℤ) = secondIterate x := ⟨(secondIterate x).toNat, by omega⟩
    rw [← ht, Int.toNat_natCast] at hfits
    rw [← ht] at hround hpos hd
    have hlarge : 2 ^ 23 < t := by
      by_contra hle
      exact hfits (fits_of_le (by omega) (by omega))
    have hlong : 6 < |d| := lt_abs.mpr (.inl (by omega))
    rw [decide_eq_true hlong] at hround
    refine ⟨.overflow, fun rounds hn => ?_⟩
    obtain ⟨k, rfl⟩ : ∃ k, rounds = k + 1 + 1 := ⟨rounds - 2, by omega⟩
    rw [doWhile_again hround, doWhile_error (powBody_error hx (by omega) hfits)]

end Rounds

/-- Near the cube root as integers is near it as real numbers. -/
theorem NearCube.near {x t : ℤ} (h0 : 0 ≤ x) (h : NearCube (2 ^ 32 * x) t) :
    |(t : ℝ) / 65536 - ((x : ℝ) / 65536) ^ (1 / 3 : ℝ)| ≤ 2 ^ (-6 : ℤ) := by
  have hx : (0 : ℝ) ≤ (x : ℝ) / 65536 := by
    have : (0 : ℝ) ≤ x := by exact_mod_cast h0
    positivity
  obtain ⟨s, hs⟩ : ∃ s : ℝ, s = ((x : ℝ) / 65536) ^ (1 / 3 : ℝ) := ⟨_, rfl⟩
  have hs0 : 0 ≤ s := hs ▸ Real.rpow_nonneg hx _
  have hcube : (65536 * s) ^ 3 = 2 ^ 32 * (x : ℝ) := by
    have hs3 : s ^ 3 = (x : ℝ) / 65536 := by
      rw [hs, ← Real.rpow_natCast, ← Real.rpow_mul hx]
      norm_num
    rw [mul_pow, hs3]
    ring
  have hpos : 0 < t + 1 := by
    have hlt : 0 < (t + 1) ^ 3 := lt_of_le_of_lt (by positivity) h.above
    exact (Odd.pow_pos_iff (by decide)).mp hlt
  have habove : 65536 * s < t + 1 := by
    apply lt_of_pow_lt_pow_left₀ 3 (by exact_mod_cast hpos.le)
    rw [hcube]
    exact_mod_cast h.above
  have hbelow : (t : ℝ) - 1023 ≤ 65536 * s := by
    rcases h.below with hsmall | hle
    · have : (t : ℝ) ≤ 1023 := by exact_mod_cast hsmall
      have : 0 ≤ 65536 * s := by positivity
      linarith
    · apply le_of_pow_le_pow_left₀ (n := 3) (by decide) (by positivity)
      rw [hcube]
      exact_mod_cast hle
  rw [← hs, abs_le]
  norm_num
  constructor
  · linarith
  · linarith

/-- **The cube root.** `pow` ends without an overflow and without a division by zero,
within 2^-6 of the cube root, if and only if `x` is not zero and the square of the
second iterate fits. -/
theorem pow_iff {x : ℤ} (hx : IsInt x) (h0 : 0 ≤ x) (y : ℤ) :
    (∃ t : ℤ, (∃ n, ∀ rounds, n < rounds → pow rounds x y = .ok (some t)) ∧
      |(t : ℝ) / 65536 - ((x : ℝ) / 65536) ^ (1 / 3 : ℝ)| ≤ 2 ^ (-6 : ℤ)) ↔
    x ≠ 0 ∧ Fits x.toNat (secondIterate x).toNat := by
  have hrun : ∀ rounds, pow rounds x y = doWhile (powBody x) rounds 131072 := by
    intro rounds
    rw [pow, int2F_two, ok_bind]
  simp only [hrun]
  lift x to ℕ using h0
  have hlt : x < 2 ^ 31 := by
    unfold IsInt at hx
    omega
  rw [Int.toNat_natCast]
  constructor
  · rintro ⟨t, ⟨n, hend⟩, -⟩
    by_contra h
    obtain ⟨e, herr⟩ := powLoop_error hlt fun hgood => h ⟨by exact_mod_cast hgood.1, hgood.2⟩
    have hboth := hend (n + 20) (by omega)
    rw [herr (n + 20) (by omega)] at hboth
    exact nomatch hboth
  · rintro ⟨h0, hfits⟩
    obtain ⟨t, ht, hend⟩ := powLoop_near hlt (by exact_mod_cast h0) hfits
    exact ⟨t, hend, ht.near (Int.natCast_nonneg x)⟩

/-- The root of 8.0. -/
theorem pow_eight : ∃ t : ℤ, (∃ n, ∀ rounds, n < rounds → pow rounds 524288 0 = .ok (some t)) ∧
    |(t : ℝ) / 65536 - (((524288 : ℤ) : ℝ) / 65536) ^ (1 / 3 : ℝ)| ≤ 2 ^ (-6 : ℤ) :=
  (pow_iff (by decide) (by decide) 0).mpr ⟨by decide, by decide, by decide⟩

/-- The iterates for zero go down until their square vanishes; those for the greatest
`x` start with one whose square is no `int`. -/
theorem pow_fails : pow 20 0 0 = .error .divZero ∧ pow 2 2147483647 0 = .error .overflow := by
  decide +kernel

end Fixed

end Nemu
