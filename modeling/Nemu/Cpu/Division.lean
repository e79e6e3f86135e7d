/-
# Division

`div` and `idiv` of a dividend in `ax`, `dx:ax` or `edx:eax`. Two things are
wrong: the remainder of a byte division goes to `dl`, not to `ah`, and the
dividend `dx:ax` of `idiv` is never negative.

Key definitions: `DivOp`, `Divided`, `DividesRight`.
Key theorems: `DivOp.exec_run`, `shifted_division_iff`, `division_iff`.
-/
import Nemu.Cpu.FlatBus
import Nemu.Cpu.Registers
import Nemu.Cpu.Ordinary
import Mathlib.Algebra.Order.Group.Unbundled.Int
import Mathlib.Data.Nat.Prime.Basic
import Mathlib.Data.Int.Basic
import Mathlib.Tactic.Ring
import Mathlib.Tactic.Linarith

namespace Nemu

open Bytes Cmd Instr

/-- The two instructions. -/
inductive DivOp where
  | div | idiv
  deriving DecidableEq

/-- `ax`, `dx:ax` or `edx:eax`. -/
def CpuState.double (c : CpuState) (d : Width) : ℕ :=
  if d = .b then (c.reg .w rEAX).toNat else (c.reg d rEDX).toNat * 2 ^ d.bits + (c.reg d rEAX).toNat

/-- Where the remainder belongs: `ah`, `dx` or `edx`. -/
def remReg (d : Width) : Fin 8 := if d = .b then 4 else rEDX

namespace DivOp

def exec {P : Type} [Bus P] : DivOp → Width → Cmd (Machine P) Unit
  | div => doDiv
  | idiv => doIdiv

/-- The dividend, which `idiv` takes as signed. -/
def dividend (op : DivOp) (d : Width) (c : CpuState) : ℤ :=
  match op with
  | div => c.double d
  | idiv => (c.double d : ℤ).bmod (2 ^ (2 * d.bits))

def divisor (op : DivOp) (d : Width) (v : Word) : ℤ :=
  match op with
  | div => (v.setWidth d.bits).toNat
  | idiv => (v.setWidth d.bits).toInt

/-- The quotient fits the width. -/
def Fits (op : DivOp) (d : Width) (q : ℤ) : Prop :=
  match op with
  | div => q < 2 ^ d.bits
  | idiv => -2 ^ (d.bits - 1) ≤ q ∧ q < 2 ^ (d.bits - 1)

instance (d : Width) (q : ℤ) : (op : DivOp) → Decidable (op.Fits d q)
  | div => inferInstanceAs (Decidable (q < 2 ^ d.bits))
  | idiv => inferInstanceAs (Decidable (-2 ^ (d.bits - 1) ≤ q ∧ q < 2 ^ (d.bits - 1)))

end DivOp

/-- The registers `gpr` are those of `c` with this quotient and this remainder. -/
def Divided (d : Width) (q r : ℤ) (c : CpuState) (gpr : Fin 8 → Word) : Prop :=
  gpr = ((c.setReg d rEAX (BitVec.ofInt 32 q)).setReg d (remReg d) (BitVec.ofInt 32 r)).gpr

/-- When the code divides `a` by `b` right: in bytes, `ah` and `dl` are the
remainder already; in `dx:ax`, a negative dividend is a multiple of the divisor,
which is a power of two but for its sign. -/
structure DividesRight (op : DivOp) (d : Width) (a b : ℤ) (c : CpuState) : Prop where
  byte : d = .b → c.reg d (remReg d) = d.trunc (BitVec.ofInt 32 (a.tmod b)) ∧
    c.reg d rEDX = d.trunc (BitVec.ofInt 32 (a.tmod b))
  word : op = .idiv → d = .w → a < 0 → b ∣ a ∧ b ∣ 2 ^ 32

/-! ### Numbers -/

/-- A divisor of 2^32 that fits 16 bits divides it at least 2^16 times. -/
theorem pow_dvd_of_mul_eq {b t : ℤ} (hb : b.natAbs ≤ 2 ^ 15) (h : b * t = 2 ^ 32) : 2 ^ 16 ∣ t := by
  have hdvd : b.natAbs ∣ 2 ^ 32 := by
    have := Int.natAbs_dvd_natAbs.mpr (Dvd.intro t h)
    simpa using this
  obtain ⟨k, -, hk⟩ := (Nat.dvd_prime_pow Nat.prime_two).mp hdvd
  rw [hk] at hb
  have hk15 : k ≤ 15 := (Nat.pow_le_pow_iff_right (by norm_num)).mp hb
  obtain ⟨s, hs⟩ : b ∣ 2 ^ 15 := by
    rw [← Int.natAbs_dvd_natAbs, hk]
    exact Nat.pow_dvd_pow 2 hk15
  have hb0 : b ≠ 0 := by
    rintro rfl
    simp at h
  have ht : b * t = b * (2 ^ 17 * s) := by
    rw [h, ← mul_assoc, mul_comm b, mul_assoc, ← hs]
    norm_num
  rw [mul_left_cancel₀ hb0 ht]
  exact Dvd.intro (2 * s) (by ring)

/-- A negative number taken as that plus 2^32: modulo 2^16 the division by 16
bits is the same only if there is no remainder and the divisor divides 2^32. -/
theorem shifted_division_iff {a b : ℤ} (ha : a < 0) (hA : 0 ≤ a + 2 ^ 32) (hb0 : b ≠ 0)
    (hb : b.natAbs ≤ 2 ^ 15) :
    (2 ^ 16 ∣ (a + 2 ^ 32).tdiv b - a.tdiv b ∧ 2 ^ 16 ∣ (a + 2 ^ 32).tmod b - a.tmod b) ↔
      b ∣ a ∧ b ∣ 2 ^ 32 := by
  have hq := Int.mul_tdiv_add_tmod a b
  have hQ := Int.mul_tdiv_add_tmod (a + 2 ^ 32) b
  constructor
  · rintro ⟨-, hrem⟩
    -- the remainders have opposite signs, and are less than 2^15 each
    have hr : a.tmod b ≤ 0 := by
      have := Int.tmod_nonneg b (a := -a) (by omega)
      rw [Int.neg_tmod] at this
      omega
    have hR : 0 ≤ (a + 2 ^ 32).tmod b := Int.tmod_nonneg b hA
    have hlt : ∀ x : ℤ, (x.tmod b).natAbs < b.natAbs := by
      intro x
      rw [Int.natAbs_tmod]
      exact Nat.mod_lt _ (Int.natAbs_pos.mpr hb0)
    have h1 := hlt a
    have h2 := hlt (a + 2 ^ 32)
    have hr0 : a.tmod b = 0 := by omega
    have hR0 : (a + 2 ^ 32).tmod b = 0 := by omega
    have hba := Int.dvd_of_tmod_eq_zero hr0
    exact ⟨hba, (Int.dvd_add_right hba).mp (Int.dvd_of_tmod_eq_zero hR0)⟩
  · rintro ⟨hba, hbp⟩
    have hr0 := Int.tmod_eq_zero_of_dvd hba
    have hR0 := Int.tmod_eq_zero_of_dvd (Int.dvd_add hba hbp)
    refine ⟨pow_dvd_of_mul_eq hb ?_, by rw [hr0, hR0]; exact dvd_zero _⟩
    rw [hr0] at hq
    rw [hR0] at hQ
    linarith

/-- Truncations agree when the numbers do modulo the width. -/
theorem Width.trunc_ofInt_eq_iff (d : Width) (x y : ℤ) :
    d.trunc (BitVec.ofInt 32 x) = d.trunc (BitVec.ofInt 32 y) ↔ (2 : ℤ) ^ d.bits ∣ x - y := by
  have hmod : ∀ z : ℤ, ((d.trunc (BitVec.ofInt 32 z)).toNat : ℤ) = z % 2 ^ d.bits := by
    intro z
    have hdvd : (2 : ℤ) ^ d.bits ∣ 2 ^ 32 := pow_dvd_pow 2 d.bits_le
    rw [toNat_trunc, BitVec.toNat_ofInt]
    push_cast
    rw [Int.toNat_of_nonneg (Int.emod_nonneg _ (by norm_num))]
    exact Int.emod_emod_of_dvd z hdvd
  rw [← BitVec.toNat_inj, ← Int.natCast_inj, hmod, hmod]
  rw [Int.emod_eq_emod_iff_emod_sub_eq_zero, Int.dvd_iff_emod_eq_zero]

/-! ### The instructions -/

section Run

variable {P : Type} [Bus P] {op : DivOp} {d : Width}

/-- The number that the code takes for the dividend. -/
def taken (op : DivOp) (d : Width) (a : ℤ) : ℤ :=
  if op = .idiv ∧ d = .w ∧ a < 0 then a + 2 ^ 32 else a

theorem toInt_sext (d : Width) (x : Word) : (d.sext x).toInt = (x.setWidth d.bits).toInt :=
  BitVec.toInt_signExtend_of_le d.bits_le

theorem toNat_setWidth_reg (d : Width) (c : CpuState) (i : Fin 8) :
    ((c.reg d i).setWidth d.bits).toNat = (c.reg d i).toNat := by
  have hlt : (c.reg d i).toNat < 2 ^ d.bits := by
    cases d
    · exact Width.toNat_trunc_lt .b _
    · exact Width.toNat_trunc_lt .w _
    · exact BitVec.isLt _
  rw [BitVec.toNat_setWidth, Nat.mod_eq_of_lt hlt]

omit [Bus P] in
/-- The dividend of `do_execute` in `idiv-template.h`. -/
theorem taken_idiv (d : Width) (m : Machine P) :
    (match d with
      | .b => (Width.sext .w (m.reg .w rEAX)).toInt
      | .w => ((m.reg d rEDX).toNat * 2 ^ 16 + (m.reg d rEAX).toNat : ℕ)
      | .l => (m.reg d rEDX).toInt * 2 ^ 32 + (m.reg d rEAX).toNat) =
      taken .idiv d (DivOp.idiv.dividend d m.cpu) := by
  have hlo := m.toNat_reg_lt d rEAX
  have hhi := m.toNat_reg_lt d rEDX
  cases d with
  | b =>
    have hax := toNat_setWidth_reg .w m.cpu rEAX
    unfold taken DivOp.dividend CpuState.double
    rw [if_neg (fun h => nomatch h.2.1), if_pos rfl, ← hax]
    exact (toInt_sext .w _).trans (BitVec.toInt_eq_toNat_bmod _)
  | w =>
    change (m.reg .w rEAX).toNat < 2 ^ 16 at hlo
    change (m.reg .w rEDX).toNat < 2 ^ 16 at hhi
    have hdividend : DivOp.idiv.dividend .w m.cpu =
        (((m.reg .w rEDX).toNat * 2 ^ 16 + (m.reg .w rEAX).toNat : ℕ) : ℤ).bmod (2 ^ 32) := rfl
    change (((m.reg .w rEDX).toNat * 2 ^ 16 + (m.reg .w rEAX).toNat : ℕ) : ℤ) = _
    rw [hdividend, taken]
    simp only [true_and]
    rw [Int.bmod_def]
    generalize (m.reg .w rEAX).toNat = lo at *
    generalize (m.reg .w rEDX).toNat = hi at *
    push_cast
    split_ifs <;> omega
  | l =>
    change (m.reg .l rEAX).toNat < 2 ^ 32 at hlo
    change (m.reg .l rEDX).toNat < 2 ^ 32 at hhi
    have hdividend : DivOp.idiv.dividend .l m.cpu =
        (((m.reg .l rEDX).toNat * 2 ^ 32 + (m.reg .l rEAX).toNat : ℕ) : ℤ).bmod (2 ^ 64) := rfl
    change (m.reg .l rEDX).toInt * 2 ^ 32 + (m.reg .l rEAX).toNat = _
    rw [taken, if_neg (fun h => nomatch h.2.1), hdividend, Int.bmod_def, BitVec.toInt_eq_toNat_cond]
    generalize (m.reg .l rEAX).toNat = lo at *
    generalize (m.reg .l rEDX).toNat = hi at *
    push_cast
    split_ifs <;> omega

/-- **What the code divides.** -/
theorem DivOp.exec_run {m : Machine P} {a b : ℤ} (ha : a = op.dividend d m.cpu)
    (hb : b = op.divisor d (m.val .src)) (hb0 : b ≠ 0) (hfit : op.Fits d (a.tdiv b)) :
    op.exec d m = .ok () ((m.setReg d rEAX (BitVec.ofInt 32 ((taken op d a).tdiv b))).setReg d rEDX
      (BitVec.ofInt 32 ((taken op d a).tmod b))) := by
  subst ha hb
  cases op with
  | div =>
    have hb : (d.trunc (m.val .src)).toNat = ((m.val .src).setWidth d.bits).toNat := by
      rw [Width.toNat_trunc, BitVec.toNat_setWidth]
    have hb' : (((d.trunc (m.val .src)).toNat : ℕ) : ℤ) ≠ 0 := by rwa [hb]
    have htaken : taken .div d (DivOp.div.dividend d m.cpu) = (m.cpu.double d : ℤ) :=
      if_neg fun h => nomatch h.1
    rw [htaken]
    change doDiv d m = _
    unfold doDiv setQuotient
    simp only [read_bind_run]
    rw [if_neg hb', hb]
    rfl
  | idiv =>
    have hb : (d.sext (m.val .src)).toInt = DivOp.idiv.divisor d (m.val .src) := toInt_sext d _
    -- the quotient that the emulator could not hold either does not fit
    have htrap : ¬ (taken .idiv d (DivOp.idiv.dividend d m.cpu) = -2 ^ 63 ∧
        DivOp.idiv.divisor d (m.val .src) = -1) := by
      rintro ⟨ha, hone⟩
      have hle : DivOp.idiv.dividend d m.cpu ≤ -2 ^ 63 := by
        unfold taken at ha
        split_ifs at ha <;> omega
      have hlt : (2 : ℤ) ^ (d.bits - 1) ≤ 2 ^ 31 := by cases d <;> decide
      have hq := hfit.2
      rw [hone, Int.tdiv_neg, Int.tdiv_one] at hq
      omega
    have hrun : doIdiv d m =
        (if taken .idiv d (DivOp.idiv.dividend d m.cpu) = -2 ^ 63 ∧ (d.sext (m.val .src)).toInt = -1
        then abort else setQuotient d (d.sext (m.val .src)).toInt
          ((taken .idiv d (DivOp.idiv.dividend d m.cpu)).tdiv (d.sext (m.val .src)).toInt)
          ((taken .idiv d (DivOp.idiv.dividend d m.cpu)).tmod (d.sext (m.val .src)).toInt)) m := by
      rw [← taken_idiv d m]
      rfl
    change doIdiv d m = _
    rw [hrun, hb]
    unfold setQuotient
    rw [if_neg htrap, if_neg hb0]
    rfl

omit [Bus P] in
/-- The registers of a byte division, against those that the results belong in. -/
theorem divided_b_iff (c : CpuState) (q r : ℤ) :
    Divided .b q r c ((c.setReg .b rEAX (BitVec.ofInt 32 q)).setReg .b rEDX (BitVec.ofInt 32 r)).gpr ↔
      c.reg .b 4 = Width.trunc .b (BitVec.ofInt 32 r) ∧
      c.reg .b rEDX = Width.trunc .b (BitVec.ofInt 32 r) := by
  have hiff := (c.setReg .b rEAX (BitVec.ofInt 32 q)).gpr_setReg_iff (d := .b)
    (show (rEDX : Fin 8) ≠ 4 by decide) (BitVec.ofInt 32 r)
  rw [c.reg_setReg_ne (by decide), c.reg_setReg_ne (by decide), and_comm] at hiff
  exact hiff

omit [Bus P] in
/-- The same of the other divisions: both results are right modulo the width. -/
theorem divided_iff (hd : d ≠ .b) (c : CpuState) (q r q' r' : ℤ) :
    Divided d q r c ((c.setReg d rEAX (BitVec.ofInt 32 q')).setReg d rEDX (BitVec.ofInt 32 r')).gpr ↔
      2 ^ d.bits ∣ q' - q ∧ 2 ^ d.bits ∣ r' - r := by
  have hne : (rEAX : Fin 8) ≠ rEDX := by decide
  rw [Divided, remReg, if_neg hd, ← d.trunc_ofInt_eq_iff, ← d.trunc_ofInt_eq_iff]
  constructor
  · intro h
    have hreg : ∀ i, CpuState.reg _ d i = CpuState.reg _ d i := fun i => CpuState.reg_of_gpr h d i
    have hq := hreg rEAX
    have hr := hreg rEDX
    rw [CpuState.reg_setReg_ne _ hne, CpuState.reg_setReg_ne _ hne, CpuState.reg_setReg,
      CpuState.reg_setReg] at hq
    rw [CpuState.reg_setReg, CpuState.reg_setReg] at hr
    exact ⟨hq, hr⟩
  · rintro ⟨hq, hr⟩
    rw [c.setReg_congr hq, CpuState.setReg_congr _ hr]

omit [Bus P] in
/-- What the code does with its dividend is right when `DividesRight`. -/
theorem divided_taken_iff (m : Machine P) {a b : ℤ} (ha : a = op.dividend d m.cpu) {v : Word}
    (hb : b = op.divisor d v) (hb0 : b ≠ 0) :
    Divided d (a.tdiv b) (a.tmod b) m.cpu
        ((m.cpu.setReg d rEAX (BitVec.ofInt 32 ((taken op d a).tdiv b))).setReg d rEDX
          (BitVec.ofInt 32 ((taken op d a).tmod b))).gpr ↔
      DividesRight op d a b m.cpu := by
  by_cases hword : op = .idiv ∧ d = .w ∧ a < 0
  · obtain ⟨rfl, rfl, hneg⟩ := hword
    rw [taken, if_pos ⟨rfl, rfl, hneg⟩, divided_iff (by decide)]
    have hA : 0 ≤ a + 2 ^ 32 := by
      have := Int.le_bmod (x := (m.cpu.double .w : ℤ)) (m := 2 ^ 32) (by norm_num)
      have hbmod : a = (m.cpu.double .w : ℤ).bmod (2 ^ 32) := ha
      rw [hbmod]
      omega
    have habs : b.natAbs ≤ 2 ^ 15 := by
      have hle := BitVec.le_toInt (v.setWidth 16)
      have hlt := BitVec.toInt_lt (x := v.setWidth 16)
      have hbv : b = (v.setWidth 16).toInt := hb
      omega
    have hiff := shifted_division_iff hneg hA hb0 habs
    refine hiff.trans ⟨fun h => ⟨nofun, fun _ _ _ => h⟩, fun h => h.word rfl rfl hneg⟩
  · rw [taken, if_neg hword]
    have hdvd : ∀ x : ℤ, (2 : ℤ) ^ d.bits ∣ x - x := fun x => by
      rw [Int.sub_self]
      exact dvd_zero _
    have hw : op = .idiv → d = .w → a < 0 → b ∣ a ∧ b ∣ 2 ^ 32 := fun h1 h2 h3 =>
      absurd ⟨h1, h2, h3⟩ hword
    by_cases hd : d = .b
    · subst hd
      rw [divided_b_iff]
      exact ⟨fun h => ⟨fun _ => h, hw⟩, fun h => h.byte rfl⟩
    · rw [divided_iff hd]
      exact iff_of_true ⟨hdvd _, hdvd _⟩ ⟨fun h => absurd h hd, hw⟩

omit [Bus P] in
/-- A number after `cltd`. -/
theorem dividend_cltd (hd : d ≠ .b) (m : Machine P) :
    DivOp.idiv.dividend d (m.setReg d rEDX (if d.msb (m.reg d rEAX) then -1 else 0)).cpu =
      ((m.reg d rEAX).setWidth d.bits).toInt := by
  have hlo := toNat_setWidth_reg d m.cpu rEAX
  set x := (m.reg d rEAX).setWidth d.bits with hx
  have hmsb : d.msb (m.reg d rEAX) = x.msb := d.msb_eq _
  have heax : (m.setReg d rEDX (if d.msb (m.reg d rEAX) then -1 else 0)).cpu.reg d rEAX = m.reg d rEAX :=
    m.cpu.reg_setReg_ne (by decide) _
  have hedx : ((m.setReg d rEDX (if d.msb (m.reg d rEAX) then -1 else 0)).cpu.reg d rEDX).toNat =
      if x.msb = true then 2 ^ d.bits - 1 else 0 := by
    have h := m.cpu.reg_setReg d rEDX (if d.msb (m.reg d rEAX) then -1 else 0)
    change ((m.cpu.setReg _ _ _).reg _ _).toNat = _
    rw [h, hmsb, Width.toNat_trunc]
    cases x.msb <;> cases d <;> rfl
  unfold DivOp.dividend CpuState.double
  rw [if_neg hd, hedx, heax, BitVec.toInt_eq_msb_cond]
  have hmod := BitVec.msb_eq_decide x
  change x.toNat = (m.reg d rEAX).toNat at hlo
  rw [← hlo]
  have hlt := x.isLt
  clear_value x
  generalize x.toNat = n at *
  cases d with
  | b => exact absurd rfl hd
  | w =>
    cases hb : x.msb <;> rw [hb] at hmod <;> simp [Width.bits, Width.bytes, Int.bmod_def] at * <;> omega
  | l =>
    cases hb : x.msb <;> rw [hb] at hmod <;> simp [Width.bits, Width.bytes, Int.bmod_def] at * <;> omega

/-- **Division.** If the quotient fits, `div` and `idiv` leave it and the
remainder where they belong, and change nothing else of the registers, if and
only if `DividesRight`; and `cltd` makes the dividend a sign-extended number. -/
theorem division_iff :
    (∀ (op : DivOp) (d : Width) (eip len : Word) (m m₁ : Machine P),
      decodeRm d (eip + 1) m = .ok len m₁ → op.divisor d (m₁.val .src) ≠ 0 →
      op.Fits d ((op.dividend d m.cpu).tdiv (op.divisor d (m₁.val .src))) →
      ∃ m', opRm op.exec d eip m = .ok (len + 1) m' ∧
        (Divided d ((op.dividend d m.cpu).tdiv (op.divisor d (m₁.val .src)))
            ((op.dividend d m.cpu).tmod (op.divisor d (m₁.val .src))) m.cpu m'.cpu.gpr ↔
          DividesRight op d (op.dividend d m.cpu) (op.divisor d (m₁.val .src)) m.cpu)) ∧
    ∀ (d : Width) (eip : Word) (m : Machine P), d ≠ .b →
      ∃ m', cltd d eip m = .ok 1 m' ∧ m'.reg d rEAX = m.reg d rEAX ∧
        DivOp.idiv.dividend d m'.cpu = ((m.reg d rEAX).setWidth d.bits).toInt := by
  refine ⟨fun op d eip len m m₁ hdec hb hfit => ?_, fun d eip m hd => ?_⟩
  · have hcpu : m₁.cpu = m.cpu := cpu_of_keeps hdec
    rw [← hcpu] at hfit
    have hrun := DivOp.exec_run rfl rfl hb hfit
    rw [hcpu] at hrun
    refine ⟨?decoded, ?hrun, ?hiff⟩
    case hrun =>
      unfold opRm idex
      rw [bind_ok hdec, bind_ok hrun]
      rfl
    case hiff =>
      change Divided _ _ _ _ ((m₁.cpu.setReg _ _ _).setReg _ _ _).gpr ↔ _
      rw [hcpu]
      exact divided_taken_iff m rfl rfl hb
  · refine ⟨_, rfl, ?_, dividend_cltd hd m⟩
    exact m.cpu.reg_setReg_ne (by decide) _

end Run

/-- `div %ecx`, of 7 by 2. -/
def divMachine : Machine FlatBus :=
  flatMachine (fun i => if i = rEAX then 7 else if i = rECX then 2 else 0) [0xf7, 0xf1]

/-- The quotient 3 is in `eax`, the remainder 1 in `edx`. -/
theorem division_iff_seven : ∃ m', opRm (DivOp.exec .div) .l 0 divMachine = .ok 2 m' ∧
    Divided .l 3 1 divMachine.cpu m'.cpu.gpr := by
  have hdec := ok_stateD (show value (decodeRm .l 1 divMachine) = some 1 by decide +kernel) divMachine
  obtain ⟨m', hrun, hiff⟩ := division_iff.1 .div .l 0 1 divMachine _ hdec (by decide +kernel)
    (by decide +kernel)
  refine ⟨m', hrun, hiff.mpr ⟨nofun, nofun⟩⟩

/-- `div %cl`, of 7 by 2: the remainder is not in `ah`. -/
theorem div_byte_wrong : ∃ m₁ m',
    decodeRm .b 1 (flatMachine divMachine.cpu.gpr [0xf6, 0xf1]) = .ok 1 m₁ ∧
    DivOp.div.dividend .b divMachine.cpu = 7 ∧ DivOp.div.divisor .b (m₁.val .src) = 2 ∧
    DivOp.div.Fits .b 3 ∧
    opRm (DivOp.exec .div) .b 0 (flatMachine divMachine.cpu.gpr [0xf6, 0xf1]) = .ok 2 m' ∧
    ¬ Divided .b 3 1 divMachine.cpu m'.cpu.gpr := by
  have hdec := ok_stateD (show value (decodeRm .b 1 (flatMachine divMachine.cpu.gpr [0xf6, 0xf1])) =
    some 1 by decide +kernel) divMachine
  have hrun := ok_stateD (show value (opRm (DivOp.exec .div) .b 0
    (flatMachine divMachine.cpu.gpr [0xf6, 0xf1])) = some 2 by decide +kernel) divMachine
  refine ⟨_, _, hdec, by decide +kernel, by decide +kernel, by decide +kernel, hrun, fun h => ?_⟩
  have hah := congrFun h rEAX
  revert hah
  decide +kernel

end Nemu
