/-
# Multiplication

`mul` and `imul` of the accumulator leave the whole product in `ax`, `dx:ax` or
`edx:eax`; `imul` of two or three operands leaves its low half in a register.

The C code multiplies in a type that can be too small for the product (32 bits
for 16-bit operands that were not sign-extended), where it relies on arithmetic
modulo the size.

Key definitions: `MulOp`, `ImulForm`.
Key theorems: `double_setDouble`, `trunc_mul`, `multiplication`.
-/
import Nemu.Cpu.BitTest
import Nemu.Cpu.Division
import Mathlib.Algebra.Order.Ring.Abs
import Mathlib.Tactic.GCongr

namespace Nemu

open Bytes Cmd Instr WordMem

set_option synthInstance.maxSize 10000

/-! ### The product of the accumulator -/

/-- The instructions with one operand. -/
inductive MulOp where
  | mul | imul

namespace MulOp

def helper {P : Type} [Bus P] : MulOp → Width → Helper P
  | mul => opRm doMul
  | imul => imulRm2a

/-- An operand as a number. -/
def factor (op : MulOp) (d : Width) (v : Word) : ℤ :=
  match op with
  | mul => (v.setWidth d.bits).toNat
  | imul => (v.setWidth d.bits).toInt

/-- `ax`, `dx:ax` or `edx:eax` as a number. -/
def product (op : MulOp) (d : Width) (c : CpuState) : ℤ :=
  match op with
  | mul => c.double d
  | imul => (c.double d : ℤ).bmod (2 ^ (2 * d.bits))

end MulOp

/-- The processor after `setDouble`. -/
def CpuState.setDouble (c : CpuState) (d : Width) (result : ℤ) : CpuState :=
  if d = .b then c.setReg .w rEAX (BitVec.ofInt 32 result)
  else (c.setReg d rEAX (BitVec.ofInt 32 result)).setReg d rEDX (BitVec.ofInt 32 (result / 2 ^ d.bits))

theorem setDouble_run {P : Type} (d : Width) (result : ℤ) (m : Machine P) :
    setDouble d result m = .ok () { m with cpu := m.cpu.setDouble d result } := by
  unfold setDouble CpuState.setDouble
  by_cases hd : d = .b
  · rw [if_pos hd, if_pos hd]
    rfl
  · rw [if_neg hd, if_neg hd]
    rfl

/-- A register holds an integer modulo the width. -/
theorem toNat_trunc_ofInt (d : Width) (x : ℤ) : ((d.trunc (BitVec.ofInt 32 x)).toNat : ℤ) = x % 2 ^ d.bits := by
  have hdvd : (2 : ℤ) ^ d.bits ∣ 2 ^ 32 := pow_dvd_pow 2 d.bits_le
  rw [Width.toNat_trunc, BitVec.toNat_ofInt]
  push_cast
  rw [Int.toNat_of_nonneg (Int.emod_nonneg _ (by norm_num))]
  exact Int.emod_emod_of_dvd x hdvd

/-- A number modulo a square, digit by digit. -/
theorem emod_square (x : ℤ) {p : ℤ} (hp : 0 < p) : x / p % p * p + x % p = x % (p * p) := by
  have h₁ := Int.emod_add_mul_ediv x p
  have h₂ := Int.emod_add_mul_ediv (x / p) p
  have hlow := Int.emod_nonneg x hp.ne'
  have hlow' := Int.emod_lt_of_pos x hp
  have hhigh := Int.emod_nonneg (x / p) hp.ne'
  have hhigh' := Int.emod_lt_of_pos (x / p) hp
  refine ((Int.ediv_emod_unique (mul_pos hp hp) (q := x / p / p)).mpr ⟨?_, ?_, ?_⟩).2.symm
  · calc x / p % p * p + x % p + p * p * (x / p / p)
        = p * (x / p % p + p * (x / p / p)) + x % p := by ring
      _ = x := by rw [h₂, Int.add_comm, h₁]
  · positivity
  · nlinarith

/-- **The register pair holds the result** modulo its size. -/
theorem double_setDouble (c : CpuState) (d : Width) (result : ℤ) :
    ((c.setDouble d result).double d : ℤ) = result % 2 ^ (2 * d.bits) := by
  have hne : (rEAX : Fin 8) ≠ rEDX := by decide
  unfold CpuState.setDouble CpuState.double
  by_cases hd : d = .b
  · subst hd
    rw [if_pos rfl, if_pos rfl, CpuState.reg_setReg, toNat_trunc_ofInt]
    rfl
  · rw [if_neg hd, if_neg hd, CpuState.reg_setReg, CpuState.reg_setReg_ne _ hne, CpuState.reg_setReg]
    push_cast
    rw [toNat_trunc_ofInt, toNat_trunc_ofInt, two_mul, pow_add]
    exact emod_square result (by positivity)

namespace MulOp

theorem mul_bounds (d : Width) (v : Word) :
    0 ≤ mul.factor d v ∧ mul.factor d v ≤ 2 ^ d.bits - 1 := by
  have hlt := (v.setWidth d.bits).isLt
  unfold factor
  constructor
  · exact Int.natCast_nonneg _
  · have hlt' : ((v.setWidth d.bits).toNat : ℤ) < 2 ^ d.bits := by exact_mod_cast hlt
    exact Int.le_sub_one_of_lt hlt'

theorem imul_bound (d : Width) (v : Word) : |imul.factor d v| ≤ 2 ^ (d.bits - 1) := by
  have hle := BitVec.le_toInt (v.setWidth d.bits)
  have hlt := BitVec.toInt_lt (x := v.setWidth d.bits)
  exact abs_le.mpr ⟨hle, hlt.le⟩

/-- **The product fits the pair.** -/
theorem product_setDouble (op : MulOp) (d : Width) (c : CpuState) (a b : Word) :
    op.product d (c.setDouble d (op.factor d a * op.factor d b)) = op.factor d a * op.factor d b := by
  cases op with
  | mul =>
    obtain ⟨ha, ha'⟩ := mul_bounds d a
    obtain ⟨hb, hb'⟩ := mul_bounds d b
    rw [product, double_setDouble]
    refine Int.emod_eq_of_lt (mul_nonneg ha hb) ?_
    have hpow : (1 : ℤ) ≤ 2 ^ d.bits := one_le_pow₀ (by norm_num)
    rw [two_mul, pow_add]
    nlinarith
  | imul =>
    have ha := imul_bound d a
    have hb := imul_bound d b
    have habs : |imul.factor d a * imul.factor d b| ≤ 2 ^ (d.bits - 1) * 2 ^ (d.bits - 1) := by
      rw [abs_mul]
      gcongr
    obtain ⟨hle, hge⟩ := abs_le.mp habs
    rw [product, double_setDouble]
    have hbmod := Int.emod_bmod (imul.factor d a * imul.factor d b) (2 ^ (2 * d.bits))
    push_cast at hbmod
    rw [hbmod, Int.bmod_eq_iff (by positivity)]
    -- the modulus is four times the bound
    have hfour : 2 ^ (2 * d.bits) = 4 * (2 ^ (d.bits - 1) * 2 ^ (d.bits - 1)) := by cases d <;> rfl
    have hpos : (0 : ℤ) < 2 ^ (d.bits - 1) * 2 ^ (d.bits - 1) := by positivity
    rw [hfour, Int.sub_self]
    push_cast
    refine ⟨?_, ?_, dvd_zero _⟩
    · omega
    · omega

end MulOp

/-! ### The product in a register -/

/-- The instructions with two or three operands. -/
inductive ImulForm where
  | rm2r | siRm2r | iRm2r
  deriving DecidableEq

namespace ImulForm

def decode {P : Type} [Bus P] : ImulForm → Width → Helper P
  | rm2r => decodeRm2r
  | siRm2r => decodeSiRm2r
  | iRm2r => decodeIRm2r

def helper {P : Type} [Bus P] : ImulForm → Width → Helper P
  | rm2r => imulRm2r
  | siRm2r => opSiRm2r doImul
  | iRm2r => opIRm2r doImul

/-- The operand in a register or in memory. -/
def rm : ImulForm → Slot
  | rm2r => .src
  | siRm2r => .src2
  | iRm2r => .src2

end ImulForm

/-- The other factor as a number: the destination `i`, or the immediate before
the next instruction. -/
def ImulForm.factor {P : Type} [Bus P] [Ram P] (f : ImulForm) (d : Width) (i : Fin 8) (next : Word)
    (m : Machine P) : ℤ :=
  match f with
  | rm2r => ((m.reg d i).setWidth d.bits).toInt
  | siRm2r => ((peek m.mem (m.cpu.linear (next - 1) 1) 1).setWidth 8).toInt
  | iRm2r => ((peek m.mem (m.cpu.linear (next - d.len) 1) d.bytes).setWidth d.bits).toInt

/-- A word modulo the width is its signed value. -/
theorem trunc_ofInt_toInt (d : Width) (v : Word) :
    d.trunc (BitVec.ofInt 32 (v.setWidth d.bits).toInt) = d.trunc v := by
  have hle := d.bits_le
  change d.trunc (d.sext v) = d.trunc v
  apply BitVec.eq_of_getLsbD_eq
  intro j hj
  simp only [Width.trunc, Width.sext, BitVec.getLsbD_setWidth, BitVec.getLsbD_signExtend]
  by_cases hd : j < d.bits
  · simp [hd, hj]
  · simp [hd]

/-- **The low bits of a product** are those of the product of the low bits. -/
theorem trunc_mul {d : Width} {v w : Word} {x y : ℤ} (hv : d.trunc v = d.trunc (BitVec.ofInt 32 x))
    (hw : d.trunc w = d.trunc (BitVec.ofInt 32 y)) :
    d.trunc (v * w) = d.trunc (BitVec.ofInt 32 (x * y)) := by
  have hprod : v * w = BitVec.ofInt 32 (v.toInt * w.toInt) := by
    rw [BitVec.ofInt_mul, BitVec.ofInt_toInt, BitVec.ofInt_toInt]
  have hv' : (2 : ℤ) ^ d.bits ∣ v.toInt - x := (d.trunc_ofInt_eq_iff _ _).mp (by rwa [BitVec.ofInt_toInt])
  have hw' : (2 : ℤ) ^ d.bits ∣ w.toInt - y := (d.trunc_ofInt_eq_iff _ _).mp (by rwa [BitVec.ofInt_toInt])
  rw [hprod, d.trunc_ofInt_eq_iff]
  have hdiff : v.toInt * w.toInt - x * y = v.toInt * (w.toInt - y) + (v.toInt - x) * y := by ring
  rw [hdiff]
  exact dvd_add (Dvd.dvd.mul_left hw' _) (Dvd.dvd.mul_right hv' _)

/-! ### The instructions -/

section Run

variable {P : Type} [Bus P] [Ram P] {d : Width} {eip len : Word} {m m₁ : Machine P}

/-- The ModR/M byte. -/
def Machine.modRM (m : Machine P) (eip : Word) : Word := peek m.mem (m.cpu.linear eip 1) 1

theorem HoldsRm.trunc {k : Slot} (h : HoldsRm d k m) : d.trunc (m.val k) = m.val k := by
  rcases h with ⟨i, -, -, hval⟩ | ⟨-, hval⟩
  · rw [hval]
    exact Width.trunc_of_lt (m.toNat_reg_lt d i)
  · rw [hval, trunc_peek]

/-- **The register operand** is the one in the field `reg`. -/
theorem decodeRmInternal_reg {k reg : Slot} (hne : k ≠ reg)
    (h : decodeRmInternal d eip k reg m = .ok len m₁) :
    m₁.type reg = .reg ∧ m₁.loc reg = regNo (bits35 (m.modRM eip)) ∧
      m₁.val reg = m.reg d (bits35 (m.modRM eip)) := by
  have hcpu : m₁.cpu = m.cpu := cpu_of_keeps h
  unfold decodeRmInternal at h
  rw [write_bind_run] at h
  obtain ⟨r, m₂, hmodrm, h⟩ := bind_eq_ok h
  injection h with _ h
  obtain ⟨htype, hloc⟩ := readModRM_reg hne.symm hmodrm
  have hr : r.2 = bits35 (m.modRM eip) := by
    unfold readModRM at hmodrm
    obtain ⟨mod, m₃, hfetch, hmodrm⟩ := bind_eq_ok hmodrm
    obtain ⟨-, -, -, -, hmod⟩ := swaddrRead_mem hfetch
    have hmod : mod = m.modRM eip := hmod
    simp only [write_bind_run] at hmodrm
    rw [← hmod]
    by_cases h3 : bits67 mod = 3
    · rw [if_pos h3] at hmodrm
      injection hmodrm with hr _
      rw [← hr]
    · rw [if_neg h3] at hmodrm
      obtain ⟨a, m₄, -, hmodrm⟩ := bind_eq_ok hmodrm
      obtain ⟨v, m₅, -, hmodrm⟩ := bind_eq_ok hmodrm
      injection hmodrm with hr _
      rw [← hr]
  subst h
  refine ⟨?_, ?_, ?_⟩
  · rw [← htype]
    simp [Machine.type, Machine.setVal]
  · rw [← hr, ← hloc]
    simp [Machine.loc, Machine.setVal]
  · rw [Machine.val_setVal, if_pos rfl, ← hr]
    exact reg_of_cpu hcpu d r.2

omit [Bus P] [Ram P] in
theorem idex_ok {dec : Helper P} {exe : Cmd (Machine P) Unit} {m' : Machine P}
    (h : dec (eip + 1) m = .ok len m₁) (hrun : exe m₁ = .ok () m') :
    idex dec exe eip m = .ok (len + 1) m' := by
  unfold idex
  rw [bind_ok h, bind_ok hrun]
  rfl

/-- The instructions with one operand. -/
theorem MulOp.helper_run (op : MulOp) (h : decodeRm d (eip + 1) m = .ok len m₁) :
    op.helper d eip m = .ok (len + 1)
      { m₁ with cpu := m.cpu.setDouble d (op.factor d (m.reg d rEAX) * op.factor d (m₁.val .src)) } := by
  have hcpu : m₁.cpu = m.cpu := cpu_of_keeps h
  have htrunc : d.trunc (m₁.val .src) = m₁.val .src := (decodeRmInternal_holds (by decide) h).1.trunc
  have hreg : m₁.reg d rEAX = m.reg d rEAX := reg_of_cpu hcpu d rEAX
  cases op with
  | mul =>
    have hsrc : ((m₁.val .src).setWidth d.bits).toNat = (m₁.val .src).toNat := by
      rw [BitVec.toNat_setWidth, ← Width.toNat_trunc, htrunc]
    have heax : ((m.reg d rEAX).setWidth d.bits).toNat = (m.reg d rEAX).toNat :=
      toNat_setWidth_reg d m.cpu rEAX
    have hrun : doMul d m₁ = .ok ()
        { m₁ with cpu := m.cpu.setDouble d (mul.factor d (m.reg d rEAX) * mul.factor d (m₁.val .src)) } := by
      unfold doMul factor
      rw [read_bind_run, read_bind_run, setDouble_run, hreg, hcpu, hsrc, heax]
    exact idex_ok h hrun
  | imul =>
    change imulRm2a d eip m = _
    unfold imulRm2a factor
    rw [bind_ok h, read_bind_run, read_bind_run, bind_ok (setDouble_run ..), hreg, hcpu, toInt_sext,
      toInt_sext]
    rfl

/-! ### The immediates -/

/-- What a decoder of an immediate leaves. -/
structure ImmDecoded (m m' : Machine P) (v : Word) : Prop where
  cpu : m'.cpu = m.cpu
  mem : m'.mem = m.mem
  val : m'.val .src = v
  operand : ∀ k, k ≠ .src → m'.operand k = m.operand k

theorem immDecoded {v : Word} (v' : Word) (h : instrFetch eip d.bytes (m.setType .src .imm) = .ok v m₁) :
    v = peek m.mem (m.cpu.linear eip 1) d.bytes ∧
      ImmDecoded m ((m₁.setLoc .src v').setVal .src v') v' := by
  obtain ⟨hcpu, hops, hmem, -, hv⟩ := swaddrRead_mem h
  have hop : m₁.operand = (m.setType .src .imm).operand := congrArg Operands.operand hops
  refine ⟨hv, hcpu, hmem, by simp [Machine.val, Machine.setVal], fun k hk => ?_⟩
  simp [Machine.setVal, Machine.setLoc, Machine.setType, hop, hk]

theorem decodeI_ok (h : decodeI d eip m = .ok len m₁) :
    len = d.len ∧ ImmDecoded m m₁ (peek m.mem (m.cpu.linear eip 1) d.bytes) := by
  unfold decodeI at h
  rw [write_bind_run] at h
  obtain ⟨v, m₂, hfetch, h⟩ := bind_eq_ok h
  obtain ⟨rfl, himm⟩ := immDecoded v hfetch
  injection h with hlen hm
  subst hm
  exact ⟨hlen.symm, himm⟩

theorem decodeSi_ok (h : decodeSi d eip m = .ok len m₁) :
    len = d.len ∧ ImmDecoded m m₁ (d.sext (peek m.mem (m.cpu.linear eip 1) d.bytes)) := by
  unfold decodeSi at h
  rw [write_bind_run] at h
  obtain ⟨v, m₂, hfetch, h⟩ := bind_eq_ok h
  obtain ⟨rfl, himm⟩ := immDecoded (d.sext v) hfetch
  injection h with hlen hm
  subst hm
  exact ⟨hlen.symm, himm⟩

theorem HoldsRm.congr {k : Slot} (h : HoldsRm d k m) (hcpu : m₁.cpu = m.cpu) (hmem : m₁.mem = m.mem)
    (hop : m₁.operand k = m.operand k) : HoldsRm d k m₁ := by
  unfold HoldsRm HoldsReg Machine.place Machine.type Machine.loc Machine.val Machine.reg at h ⊢
  rw [hop, hcpu, hmem]
  exact h

/-! ### A product in a register -/

omit [Ram P] in
theorem doImul_run {i : Fin 8} (htype : m.type .dest = .reg) (hloc : m.loc .dest = regNo i) :
    doImul d m = .ok () (m.setReg d i (m.val .src * m.val .src2)) := by
  unfold doImul
  rw [read_bind_run, read_bind_run, writeOperand_reg _ htype hloc]

/-- What the instructions multiply. -/
structure Factors (f : ImulForm) (d : Width) (eip len : Word) (m m₁ : Machine P) : Prop where
  cpu : m₁.cpu = m.cpu
  type : m₁.type .dest = .reg
  loc : m₁.loc .dest = regNo (bits35 (m.modRM (eip + 1)))
  rm : HoldsRm d f.rm m₁
  other : d.trunc (m₁.val (if f = .rm2r then .dest else .src)) =
    d.trunc (BitVec.ofInt 32 (f.factor d (bits35 (m.modRM (eip + 1))) (eip + (len + 1)) m))

theorem before_next (eip n k : Word) : eip + (n + k + 1) - k = eip + 1 + n := by
  bv_omega

theorem factors_imm {f : ImulForm} {n : Word} {m₀ : Machine P} {v : Word} (hf : f.rm = .src2)
    (hdec : decodeRmInternal d (eip + 1) .src2 .dest m = .ok n m₀) (himm : ImmDecoded m₀ m₁ v)
    (hne : f ≠ .rm2r)
    (hother : d.trunc v =
      d.trunc (BitVec.ofInt 32 (f.factor d (bits35 (m.modRM (eip + 1))) (eip + (len + 1)) m))) :
    Factors f d eip len m m₁ := by
  have hcpu₀ : m₀.cpu = m.cpu := cpu_of_keeps hdec
  obtain ⟨htype, hloc, -⟩ := decodeRmInternal_reg (by decide) hdec
  have hop := himm.operand .dest (by decide)
  refine ⟨himm.cpu.trans hcpu₀, ?_, ?_, ?_, ?_⟩
  · rw [Machine.type, hop]
    exact htype
  · rw [Machine.loc, hop]
    exact hloc
  · rw [hf]
    exact (decodeRmInternal_holds (by decide) hdec).1.congr himm.cpu himm.mem (himm.operand .src2 (by decide))
  · rw [if_neg hne, himm.val, hother]

theorem factors {f : ImulForm} (h : f.decode d (eip + 1) m = .ok len m₁) : Factors f d eip len m m₁ := by
  cases f with
  | rm2r =>
    have hdec : decodeRmInternal d (eip + 1) .src .dest m = .ok len m₁ := h
    obtain ⟨htype, hloc, hval⟩ := decodeRmInternal_reg (by decide) hdec
    refine ⟨cpu_of_keeps hdec, htype, hloc, (decodeRmInternal_holds (by decide) hdec).1, ?_⟩
    rw [if_pos rfl, hval]
    exact (trunc_ofInt_toInt d _).symm
  | siRm2r =>
    have h : decodeSiRm2r d (eip + 1) m = .ok len m₁ := h
    unfold decodeSiRm2r at h
    obtain ⟨n, m₀, hdec, h⟩ := bind_eq_ok h
    obtain ⟨n', m₂, hsi, h⟩ := bind_eq_ok h
    injection h with hlen hm
    subst hm
    obtain ⟨rfl, himm⟩ := decodeSi_ok hsi
    have hcpu₀ : m₀.cpu = m.cpu := cpu_of_keeps hdec
    have hmem₀ : m₀.mem = m.mem := mem_of_keeps hdec
    refine factors_imm rfl hdec himm nofun ?_
    have hnext : eip + (len + 1) - 1 = eip + 1 + n := hlen ▸ before_next eip n 1
    rw [ImulForm.factor, hnext, hcpu₀, hmem₀]
    rfl
  | iRm2r =>
    have h : decodeIRm2r d (eip + 1) m = .ok len m₁ := h
    unfold decodeIRm2r at h
    obtain ⟨n, m₀, hdec, h⟩ := bind_eq_ok h
    obtain ⟨n', m₂, hi, h⟩ := bind_eq_ok h
    injection h with hlen hm
    subst hm
    obtain ⟨rfl, himm⟩ := decodeI_ok hi
    have hcpu₀ : m₀.cpu = m.cpu := cpu_of_keeps hdec
    have hmem₀ : m₀.mem = m.mem := mem_of_keeps hdec
    refine factors_imm rfl hdec himm nofun ?_
    have hnext : eip + (len + 1) - d.len = eip + 1 + n := hlen ▸ before_next eip n d.len
    rw [ImulForm.factor, hnext, hcpu₀, hmem₀]
    exact (trunc_ofInt_toInt d _).symm

omit [Ram P] in
theorem imulRm2r_ok {m' : Machine P} (h : decodeRm2r d (eip + 1) m = .ok len m₁)
    (hrun : doImul d (m₁.setOperand .src2 (m₁.operand .dest)) = .ok () m') :
    imulRm2r d eip m = .ok (len + 1) m' := by
  unfold imulRm2r
  rw [bind_ok h, write_bind_run, bind_ok hrun]
  rfl

/-- The instructions with more operands. -/
theorem ImulForm.helper_run {f : ImulForm} (h : f.decode d (eip + 1) m = .ok len m₁) :
    ∃ m', f.helper d eip m = .ok (len + 1) m' ∧
      m'.cpu = m₁.cpu.setReg d (bits35 (m.modRM (eip + 1)))
        (m₁.val f.rm * m₁.val (if f = .rm2r then .dest else .src)) := by
  obtain ⟨-, htype, hloc, -, -⟩ := factors h
  have hsrc2 : m₁.val .src2 * m₁.val .src = m₁.val .src * m₁.val .src2 := BitVec.mul_comm _ _
  have hrun := doImul_run (d := d) htype hloc
  cases f with
  | rm2r =>
    have h : decodeRm2r d (eip + 1) m = .ok len m₁ := h
    -- the destination is copied to `src2`
    have hrun := doImul_run (d := d) (m := m₁.setOperand .src2 (m₁.operand .dest)) htype hloc
    have hval : (m₁.setOperand .src2 (m₁.operand .dest)).val .src2 = m₁.val .dest := by
      simp [Machine.val]
    rw [hval] at hrun
    exact ⟨_, imulRm2r_ok h hrun, rfl⟩
  | siRm2r =>
    have h : decodeSiRm2r d (eip + 1) m = .ok len m₁ := h
    refine ⟨_, idex_ok h hrun, ?_⟩
    rw [if_neg (by decide), rm, hsrc2]
    rfl
  | iRm2r =>
    have h : decodeIRm2r d (eip + 1) m = .ok len m₁ := h
    refine ⟨_, idex_ok h hrun, ?_⟩
    rw [if_neg (by decide), rm, hsrc2]
    rfl

/-- **Multiplication.** `mul` and `imul` leave the product of the accumulator and
the operand in the double register, `imul` with more operands its low bits in the
register that the field `reg` names, and no other register changes. -/
theorem multiplication :
    (∀ (op : MulOp) (d : Width) (eip len : Word) (m m₁ : Machine P), decodeRm d (eip + 1) m = .ok len m₁ →
      HoldsRm d .src m₁ ∧ ∃ m', op.helper d eip m = .ok (len + 1) m' ∧
        op.product d m'.cpu = op.factor d (m.reg d rEAX) * op.factor d (m₁.val .src) ∧
        ∃ lo hi, m'.cpu = if d = .b then m.cpu.setReg .w rEAX lo
          else (m.cpu.setReg d rEAX lo).setReg d rEDX hi) ∧
    ∀ (f : ImulForm) (d : Width) (eip len : Word) (m m₁ : Machine P), f.decode d (eip + 1) m = .ok len m₁ →
      HoldsRm d f.rm m₁ ∧ ∃ m', f.helper d eip m = .ok (len + 1) m' ∧
        m'.cpu = m.cpu.setReg d (bits35 (m.modRM (eip + 1))) (BitVec.ofInt 32
          (((m₁.val f.rm).setWidth d.bits).toInt *
            f.factor d (bits35 (m.modRM (eip + 1))) (eip + (len + 1)) m)) := by
  refine ⟨fun op d eip len m m₁ h => ?_, fun f d eip len m m₁ h => ?_⟩
  · refine ⟨(decodeRmInternal_holds (by decide) h).1, _, op.helper_run h, op.product_setDouble .., ?_⟩
    unfold CpuState.setDouble
    by_cases hd : d = .b
    · rw [if_pos hd]
      exact ⟨_, 0, (if_pos hd).symm⟩
    · rw [if_neg hd]
      exact ⟨_, _, (if_neg hd).symm⟩
  · have hfactors := factors h
    obtain ⟨m', hrun, hcpu⟩ := f.helper_run h
    refine ⟨hfactors.rm, m', hrun, ?_⟩
    rw [hcpu, hfactors.cpu]
    exact CpuState.setReg_congr _ (trunc_mul (trunc_ofInt_toInt d _).symm hfactors.other) _

end Run

/-- `imull $-2, %ecx, %eax` of 5, and `imulb %cl` of -3. -/
theorem multiplication_runs :
    (∃ m', opSiRm2r doImul .l 0 (flatMachine (fun i => if i = rECX then 5 else 0) [0x6b, 0xc1, 0xfe]) =
      .ok 3 m' ∧ m'.reg .l rEAX = -10) ∧
    ∃ m', imulRm2a .b 0 (flatMachine (fun i => if i = rECX then 5 else 0xfd) [0xf6, 0xe9]) = .ok 2 m' ∧
      MulOp.imul.product .b m'.cpu = -15 := by
  have hsi := ok_stateD (show value (decodeSiRm2r .l 1 (flatMachine (fun i => if i = rECX then 5 else 0)
    [0x6b, 0xc1, 0xfe])) = some 2 by decide +kernel) (flatMachine (fun _ => 0) [])
  have hrm := ok_stateD (show value (decodeRm .b 1 (flatMachine (fun i => if i = rECX then 5 else 0xfd)
    [0xf6, 0xe9])) = some 1 by decide +kernel) (flatMachine (fun _ => 0) [])
  obtain ⟨-, m', hrun, hcpu⟩ := multiplication.2 .siRm2r .l 0 2 _ _ hsi
  obtain ⟨-, m'', hrun', hproduct, -⟩ := multiplication.1 .imul .b 0 1 _ _ hrm
  refine ⟨⟨m', hrun, ?_⟩, m'', hrun', hproduct.trans (by decide +kernel)⟩
  rw [Machine.reg, hcpu]
  decide +kernel

end Nemu
