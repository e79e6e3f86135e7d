/-
# Multiplication and division of fixed-point numbers

`FLOAT.c`: a `FLOAT` is an `int` that counts 65536ths. `F_div_F` divides the
magnitudes, and then finds 16 more digits of the quotient by shifting and
subtracting, all of it in `int`. So it needs room for twice the remainder, and
for the magnitude of either operand and of the result.

An operation on `int` whose result is not one is an overflow.

Key definitions: `IsInt`, `int`, `fMulF`, `fDivF`, `Roomy`.
Key theorems: `fDivFLoop_ok`, `fDivFLoop_error`, `fDivF_iff`, `fDivF_of_nonneg`.
-/
import Nemu.Lib.ShiftSub
import Mathlib.Data.Int.Init
import Mathlib.Tactic.Linarith
import Mathlib.Tactic.NormNum

namespace Nemu

namespace Fixed

/-- Why an operation has no result. -/
inductive Trouble where
  | overflow
  | divZero
  | shift
  deriving DecidableEq

/-- The values of an `int`. -/
def IsInt (n : ℤ) : Prop := -2 ^ 31 ≤ n ∧ n < 2 ^ 31

instance (n : ℤ) : Decidable (IsInt n) := inferInstanceAs (Decidable (_ ∧ _))

/-- The result of an operation on `int`. -/
def int (n : ℤ) : Except Trouble ℤ := if IsInt n then .ok n else .error .overflow

/-- `a / b`. -/
def quot (a b : ℤ) : Except Trouble ℤ := if b = 0 then .error .divZero else int (a.tdiv b)

/-- `a % b`. -/
def rem (a b : ℤ) : Except Trouble ℤ := do
  let _ ← quot a b
  return a.tmod b

/-- `F_mul_F`: the product is a `long long`, and is cut to an `int`. -/
def fMulF (a b : ℤ) : Except Trouble ℤ := int ((a * b).fdiv (2 ^ 16))

/-- `sign` and the magnitude. -/
def takeSign (sign a : ℤ) : Except Trouble (ℤ × ℤ) :=
  if a < 0 then do
    let a ← int (-a)
    return (-sign, a)
  else .ok (sign, a)

/-- The body of the loop of `F_div_F`, on `a` and `res`. -/
def fDivFStep (b : ℤ) (x : ℤ × ℤ) : Except Trouble (ℤ × ℤ) := do
  let a ← int (2 * x.1)
  let res ← int (2 * x.2)
  if b ≤ a then
    let a ← int (a - b)
    let res ← int (res + 1)
    return (a, res)
  else return (a, res)

/-- So many rounds of it. -/
def fDivFLoop (b : ℤ) : ℕ → ℤ × ℤ → Except Trouble (ℤ × ℤ)
  | 0, x => .ok x
  | n + 1, x => do
    let x ← fDivFStep b x
    fDivFLoop b n x

/-- `F_div_F`. -/
def fDivF (a b : ℤ) : Except Trouble ℤ := do
  let (sign, a) ← takeSign 1 a
  let (sign, b) ← takeSign sign b
  let res ← quot a b
  let a ← rem a b
  let x ← fDivFLoop b 16 (a, res)
  int (x.2 * sign)

@[simp] theorem ok_bind {α β : Type} (a : α) (f : α → Except Trouble β) : (.ok a >>= f) = f a := rfl

@[simp] theorem error_bind {α β : Type} (e : Trouble) (f : α → Except Trouble β) :
    (.error e >>= f) = .error e := rfl

theorem int_ok {n : ℤ} (h : IsInt n) : int n = .ok n := if_pos h

theorem int_error {n : ℤ} (h : ¬ IsInt n) : int n = .error .overflow := if_neg h

theorem quot_ok {a b : ℤ} (hb : b ≠ 0) (h : IsInt (a.tdiv b)) : quot a b = .ok (a.tdiv b) := by
  rw [quot, if_neg hb, int_ok h]

/-! ### The loop -/

section Loop

variable {a b : ℕ}

/-- No remainder of the first `n` rounds, from round `j` on, is too large to be
doubled. -/
def Roomy (a b j n : ℕ) : Prop := ∀ k < n, a * 2 ^ (j + k) % b < 2 ^ 30

instance (a b j n : ℕ) : Decidable (Roomy a b j n) := inferInstanceAs (Decidable (∀ k < n, _))

theorem roomy_succ (a b j n : ℕ) : Roomy a b j (n + 1) ↔ a * 2 ^ j % b < 2 ^ 30 ∧ Roomy a b (j + 1) n := by
  constructor
  · intro h
    refine ⟨h 0 n.succ_pos, fun k hk => ?_⟩
    rw [Nat.add_right_comm, Nat.add_assoc]
    exact h (k + 1) (Nat.succ_lt_succ hk)
  · rintro ⟨h0, h⟩ k hk
    cases k with
    | zero => exact h0
    | succ k =>
      have hk := h k (Nat.lt_of_succ_lt_succ hk)
      rwa [Nat.add_right_comm, Nat.add_assoc] at hk

/-- A remainder less than a divisor that is not too large has room. -/
theorem roomy_of_le (h0 : 0 < b) (hb : b ≤ 2 ^ 30) (a j n : ℕ) : Roomy a b j n :=
  fun _ _ => lt_of_lt_of_le (Nat.mod_lt _ h0) hb

/-- **A round** is one of dividing by shifting and subtracting, or overflows. -/
theorem fDivFStep_eq {r q : ℕ} (hb : (b : ℤ) < 2 ^ 31) : fDivFStep b (r, q) =
    if r < 2 ^ 30 ∧ q < 2 ^ 30 then
      .ok (((ShiftSub.step b (r, q)).1 : ℤ), ((ShiftSub.step b (r, q)).2 : ℤ))
    else .error .overflow := by
  unfold fDivFStep
  dsimp only
  by_cases hr : r < 2 ^ 30
  · rw [int_ok (by unfold IsInt; omega)]
    by_cases hq : q < 2 ^ 30
    · rw [int_ok (by unfold IsInt; omega), if_pos ⟨hr, hq⟩]
      unfold ShiftSub.step
      dsimp only
      change (if (b : ℤ) ≤ 2 * r then _ else _) = _
      by_cases hle : b ≤ 2 * r
      · rw [if_pos (by omega), if_pos hle, int_ok (by unfold IsInt; omega),
          int_ok (by unfold IsInt; omega)]
        push_cast [hle]
        rfl
      · rw [if_neg (by omega), if_neg hle]
        push_cast
        rfl
    · rw [int_error (by unfold IsInt; omega), if_neg fun h => hq h.2]
      rfl
  · rw [int_error (by unfold IsInt; omega), if_neg fun h => hr h.1]
    rfl

/-- **The loop** comes to the remainder and the quotient of the shifted dividend. -/
theorem fDivFLoop_ok (h0 : 0 < b) (hb : (b : ℤ) < 2 ^ 31) : ∀ {n j : ℕ}, Roomy a b j n →
    a * 2 ^ (j + n) / b < 2 ^ 31 →
    fDivFLoop b n (((a * 2 ^ j % b : ℕ) : ℤ), ((a * 2 ^ j / b : ℕ) : ℤ)) =
      .ok (((a * 2 ^ (j + n) % b : ℕ) : ℤ), ((a * 2 ^ (j + n) / b : ℕ) : ℤ))
  | 0, _, _, _ => rfl
  | n + 1, j, hroom, hq => by
    obtain ⟨hr, hroom⟩ := (roomy_succ a b j n).mp hroom
    have hpow : a * 2 ^ (j + 1) = 2 * (a * 2 ^ j) := by ring
    have hq1 : a * 2 ^ j / b < 2 ^ 30 := by
      have hdouble : 2 * (a * 2 ^ j / b) ≤ 2 * (a * 2 ^ j) / b := Nat.mul_div_le_mul_div_assoc ..
      have hmono : a * 2 ^ (j + 1) / b ≤ a * 2 ^ (j + (n + 1)) / b := by
        apply Nat.div_le_div_right
        apply Nat.mul_le_mul_left
        exact Nat.pow_le_pow_right (by decide) (by omega)
      rw [hpow] at hmono
      omega
    have hshift : j + (n + 1) = j + 1 + n := by omega
    rw [fDivFLoop, fDivFStep_eq hb, if_pos ⟨hr, hq1⟩, ShiftSub.step_eq h0, ← hpow, hshift]
    exact fDivFLoop_ok h0 hb hroom (by rwa [← hshift])

/-- Without the room, or with too large a quotient, it does not. -/
theorem fDivFLoop_error (h0 : 0 < b) (hb : (b : ℤ) < 2 ^ 31) : ∀ {n j : ℕ},
    a * 2 ^ j / b < 2 ^ 31 → ¬ (Roomy a b j n ∧ a * 2 ^ (j + n) / b < 2 ^ 31) →
    fDivFLoop b n (((a * 2 ^ j % b : ℕ) : ℤ), ((a * 2 ^ j / b : ℕ) : ℤ)) = .error .overflow
  | 0, j, hq, hnot => (hnot ⟨fun k hk => (Nat.not_lt_zero k hk).elim, hq⟩).elim
  | n + 1, j, hq, hnot => by
    have hpow : a * 2 ^ (j + 1) = 2 * (a * 2 ^ j) := by ring
    have hshift : j + (n + 1) = j + 1 + n := by omega
    rw [fDivFLoop, fDivFStep_eq hb]
    by_cases hgo : a * 2 ^ j % b < 2 ^ 30 ∧ a * 2 ^ j / b < 2 ^ 30
    · have hstep := ShiftSub.step_eq h0 (a * 2 ^ j)
      have hq1 : a * 2 ^ (j + 1) / b < 2 ^ 31 := by
        have hdigit : 2 * (a * 2 ^ j) / b ≤ 2 * (a * 2 ^ j / b) + 1 := by
          have hsnd := congrArg Prod.snd hstep
          unfold ShiftSub.step at hsnd
          split_ifs at hsnd
          · exact hsnd.ge
          · exact le_trans hsnd.ge (Nat.le_succ _)
        rw [hpow]
        omega
      rw [if_pos hgo, hstep, ← hpow]
      refine fDivFLoop_error h0 hb hq1 fun h => hnot ⟨(roomy_succ a b j n).mpr ⟨hgo.1, h.1⟩, ?_⟩
      rw [hshift]
      exact h.2
    · rw [if_neg hgo]
      rfl

end Loop

/-! ### The signs -/

section Signs

variable {a b s : ℤ}

/-- The sign of the quotient, if it is not zero. -/
def signs (a b : ℤ) : ℤ := if a < 0 ↔ b < 0 then 1 else -1

theorem takeSign_ok (ha : IsInt a) (hmin : a ≠ -2 ^ 31) :
    takeSign s a = .ok (if a < 0 then -s else s, (a.natAbs : ℤ)) := by
  unfold takeSign
  by_cases hneg : a < 0
  · have habs : (a.natAbs : ℤ) = -a := by omega
    rw [if_pos hneg, if_pos hneg, int_ok (by unfold IsInt at *; omega), habs]
    rfl
  · have habs : (a.natAbs : ℤ) = a := by omega
    rw [if_neg hneg, if_neg hneg, habs]

theorem takeSign_min (s : ℤ) : takeSign s (-2 ^ 31) = .error .overflow := rfl

/-- The quotient of the magnitudes, with the sign. -/
theorem tdiv_eq (a b : ℤ) (n : ℕ) :
    (a * n).tdiv b = ((a.natAbs * n / b.natAbs : ℕ) : ℤ) * signs a b := by
  have hmag : ((a.natAbs : ℤ) * n).tdiv b.natAbs = ((a.natAbs * n / b.natAbs : ℕ) : ℤ) := by
    rw [← Nat.cast_mul, Int.tdiv_eq_ediv_of_nonneg (Int.natCast_nonneg _), Int.natCast_ediv]
  rw [← hmag]
  by_cases ha : a < 0 <;> by_cases hb : b < 0
  · have hs : signs a b = 1 := if_pos ⟨fun _ => hb, fun _ => ha⟩
    have hA : a = -(a.natAbs : ℤ) := by omega
    have hB : b = -(b.natAbs : ℤ) := by omega
    rw [hs, mul_one]
    nth_rewrite 1 [hA]
    nth_rewrite 1 [hB]
    rw [neg_mul, Int.neg_tdiv, Int.tdiv_neg, neg_neg]
  · have hs : signs a b = -1 := if_neg fun h => hb (h.mp ha)
    have hA : a = -(a.natAbs : ℤ) := by omega
    have hB : b = (b.natAbs : ℤ) := by omega
    rw [hs, mul_neg, mul_one, ← hB]
    nth_rewrite 1 [hA]
    rw [neg_mul, Int.neg_tdiv]
  · have hs : signs a b = -1 := if_neg fun h => ha (h.mpr hb)
    have hA : a = (a.natAbs : ℤ) := by omega
    have hB : b = -(b.natAbs : ℤ) := by omega
    rw [hs, mul_neg, mul_one, ← hA]
    nth_rewrite 1 [hB]
    rw [Int.tdiv_neg]
  · have hs : signs a b = 1 := if_pos ⟨fun h => (ha h).elim, fun h => (hb h).elim⟩
    have hA : a = (a.natAbs : ℤ) := by omega
    have hB : b = (b.natAbs : ℤ) := by omega
    rw [hs, mul_one, ← hA, ← hB]

theorem quot_magnitudes (ha : IsInt a) (hamin : a ≠ -2 ^ 31) (hb0 : b ≠ 0) :
    quot a.natAbs b.natAbs = .ok ((a.natAbs / b.natAbs : ℕ) : ℤ) := by
  have hdiv : (a.natAbs : ℤ).tdiv b.natAbs = ((a.natAbs / b.natAbs : ℕ) : ℤ) := by
    rw [Int.tdiv_eq_ediv_of_nonneg (Int.natCast_nonneg _), Int.natCast_ediv]
  have hle := Nat.div_le_self a.natAbs b.natAbs
  rw [← hdiv]
  apply quot_ok
  · omega
  · rw [hdiv]
    generalize a.natAbs / b.natAbs = q at hle
    unfold IsInt at *
    omega

theorem rem_magnitudes (ha : IsInt a) (hamin : a ≠ -2 ^ 31) (hb0 : b ≠ 0) :
    rem a.natAbs b.natAbs = .ok ((a.natAbs % b.natAbs : ℕ) : ℤ) := by
  have hmod : (a.natAbs : ℤ).tmod b.natAbs = ((a.natAbs % b.natAbs : ℕ) : ℤ) := by
    rw [Int.tmod_eq_emod_of_nonneg (Int.natCast_nonneg _), Int.natCast_emod]
  rw [rem, quot_magnitudes ha hamin hb0, ok_bind, hmod]
  rfl

/-- The magnitudes are divided, and the sign is put back. -/
theorem fDivF_eq (ha : IsInt a) (hb : IsInt b) (hamin : a ≠ -2 ^ 31) (hbmin : b ≠ -2 ^ 31) (hb0 : b ≠ 0) :
    fDivF a b = fDivFLoop (b.natAbs : ℤ) 16
        (((a.natAbs * 2 ^ 0 % b.natAbs : ℕ) : ℤ), ((a.natAbs * 2 ^ 0 / b.natAbs : ℕ) : ℤ)) >>= fun x =>
      int (x.2 * signs a b) := by
  have hsign : (if b < 0 then -(if a < 0 then -1 else 1) else if a < 0 then -1 else (1 : ℤ)) = signs a b := by
    unfold signs
    by_cases ha : a < 0 <;> by_cases hb : b < 0 <;> simp [ha, hb]
  rw [pow_zero, mul_one]
  unfold fDivF
  rw [takeSign_ok ha hamin, ok_bind]
  dsimp only
  rw [takeSign_ok hb hbmin, ok_bind]
  dsimp only
  rw [quot_magnitudes ha hamin hb0, ok_bind, rem_magnitudes ha hamin hb0, ok_bind, hsign]

/-- **Division.** A quotient that is an `int` is what `F_div_F` returns, without
an overflow, if and only if neither operand nor the quotient is the least `int`,
and all remainders have room. -/
theorem fDivF_iff (ha : IsInt a) (hb : IsInt b) (hb0 : b ≠ 0) (hq : IsInt ((a * 65536).tdiv b)) :
    fDivF a b = .ok ((a * 65536).tdiv b) ↔ a ≠ -2 ^ 31 ∧ b ≠ -2 ^ 31 ∧ (a * 65536).tdiv b ≠ -2 ^ 31 ∧
      ∀ k < 16, a.natAbs * 2 ^ k % b.natAbs < 2 ^ 30 := by
  have htdiv : (a * 65536).tdiv b = ((a.natAbs * 2 ^ 16 / b.natAbs : ℕ) : ℤ) * signs a b := tdiv_eq a b 65536
  have hroom : (∀ k < 16, a.natAbs * 2 ^ k % b.natAbs < 2 ^ 30) ↔ Roomy a.natAbs b.natAbs 0 16 := by
    unfold Roomy
    simp only [Nat.zero_add]
  by_cases hamin : a = -2 ^ 31
  · refine ⟨fun h => ?_, fun h => (h.1 hamin).elim⟩
    rw [fDivF, hamin, takeSign_min] at h
    exact nomatch h
  by_cases hbmin : b = -2 ^ 31
  · refine ⟨fun h => ?_, fun h => (h.2.1 hbmin).elim⟩
    simp only [fDivF, takeSign_ok ha hamin, hbmin, takeSign_min, ok_bind, error_bind] at h
    exact nomatch h
  have h0 : 0 < b.natAbs := by omega
  have hlt : (b.natAbs : ℤ) < 2 ^ 31 := by
    unfold IsInt at hb
    omega
  have hfirst : a.natAbs * 2 ^ 0 / b.natAbs < 2 ^ 31 := by
    have hle := Nat.div_le_self (a.natAbs * 2 ^ 0) b.natAbs
    unfold IsInt at ha
    omega
  have hsigns : signs a b = 1 ∨ signs a b = -1 := by
    unfold signs
    split_ifs
    · exact .inl rfl
    · exact .inr rfl
  -- the least `int` is the only quotient whose magnitude is too large
  have hmag : (a * 65536).tdiv b ≠ -2 ^ 31 ↔ a.natAbs * 2 ^ (0 + 16) / b.natAbs < 2 ^ 31 := by
    rw [htdiv] at hq ⊢
    unfold IsInt at hq
    rw [Nat.zero_add]
    generalize a.natAbs * 2 ^ 16 / b.natAbs = q at hq ⊢
    rcases hsigns with h | h <;> rw [h] at hq ⊢ <;> omega
  rw [fDivF_eq ha hb hamin hbmin hb0, hmag, hroom]
  by_cases hgo : Roomy a.natAbs b.natAbs 0 16 ∧ a.natAbs * 2 ^ (0 + 16) / b.natAbs < 2 ^ 31
  · rw [fDivFLoop_ok h0 hlt hgo.1 hgo.2]
    refine ⟨fun _ => ⟨hamin, hbmin, hgo.2, hgo.1⟩, fun _ => ?_⟩
    rw [htdiv] at hq ⊢
    exact int_ok hq
  · rw [fDivFLoop_error h0 hlt hfirst hgo]
    refine ⟨fun h => (nomatch h), fun h => (hgo ⟨h.2.2.2, h.2.2.1⟩).elim⟩

/-- Half of one is half. -/
theorem fDivF_one_two : fDivF 65536 131072 = .ok ((65536 * 65536 : ℤ).tdiv 131072) :=
  (fDivF_iff (by decide) (by decide) (by decide) (by decide)).mpr
    ⟨by decide, by decide, by decide, by decide⟩

/-- The least `int`, whose magnitude is none, and a divisor and a remainder of which
twice is too much: the quotients are an `int`, and are not found. -/
theorem fDivF_overflows :
    (IsInt ((-2 ^ 31 * 65536 : ℤ).tdiv 2147483647) ∧ fDivF (-2 ^ 31) 2147483647 = .error .overflow) ∧
    (IsInt ((2 ^ 30 * 65536 : ℤ).tdiv 2147483647) ∧ fDivF (2 ^ 30) 2147483647 = .error .overflow) ∧
    (IsInt ((-2 ^ 30 * 65536 : ℤ).tdiv (2 ^ 15)) ∧ fDivF (-2 ^ 30) (2 ^ 15) = .error .overflow) := by
  decide

/-- **Division of what is not negative**, with a divisor that is not too large. -/
theorem fDivF_of_nonneg {x t : ℕ} (hx : x < 2 ^ 31) (h0 : 0 < t) (ht : t < 2 ^ 31)
    (hroom : Roomy x t 0 16) (hq : x * 65536 / t < 2 ^ 31) :
    fDivF x t = .ok ((x * 65536 / t : ℕ) : ℤ) := by
  have hsign : signs x t = 1 := by
    unfold signs
    rw [if_pos]
    omega
  have hint : IsInt (((x * 65536 / t : ℕ) : ℤ) * 1) := by
    unfold IsInt
    generalize x * 65536 / t = q at hq
    omega
  rw [fDivF_eq (by unfold IsInt; omega) (by unfold IsInt; omega) (by omega) (by omega) (by omega), hsign,
    Int.natAbs_natCast, Int.natAbs_natCast, fDivFLoop_ok h0 (by omega) hroom hq, ok_bind]
  change int (((x * 65536 / t : ℕ) : ℤ) * 1) = _
  rw [int_ok hint, mul_one]

/-- And without the room it overflows. -/
theorem fDivF_error {x t : ℕ} (hx : x < 2 ^ 31) (h0 : 0 < t) (ht : t < 2 ^ 31) (hroom : ¬ Roomy x t 0 16) :
    fDivF x t = .error .overflow := by
  have hfirst : x * 2 ^ 0 / t < 2 ^ 31 := by
    have hle := Nat.div_le_self (x * 2 ^ 0) t
    omega
  rw [fDivF_eq (by unfold IsInt; omega) (by unfold IsInt; omega) (by omega) (by omega) (by omega),
    Int.natAbs_natCast, Int.natAbs_natCast, fDivFLoop_error h0 (by omega) hfirst fun h => hroom h.1, error_bind]

end Signs

end Fixed

end Nemu
