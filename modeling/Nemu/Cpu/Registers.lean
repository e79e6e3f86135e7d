/-
# Reading and writing registers

The registers of a width are independent of each other, except that `ah` is the
second byte of `ax`, and so on: a write of one is read back truncated, the others
are as before, and a write of what is there already changes nothing.

Key theorems: `CpuState.reg_setReg_ne`, `CpuState.setReg_eq_self`,
`CpuState.setReg_congr`, `CpuState.gpr_setReg_iff`.
-/
import Nemu.Cpu.Exec
import Nemu.Cpu.Frame

namespace Nemu

open Bytes Cmd

namespace CpuState

variable (c : CpuState)

theorem setReg_congr {d : Width} {v v' : Word} (h : d.trunc v = d.trunc v') (i : Fin 8) :
    c.setReg d i v = c.setReg d i v' := by
  cases d with
  | b => simp only [setReg, h]
  | w => simp only [setReg, h]
  | l =>
    have hv : ∀ x : Word, Width.l.trunc x = x := fun x => Width.trunc_of_lt x.isLt
    rw [hv, hv] at h
    rw [h]

/-- The bits of a byte register in its 32-bit register. -/
theorem mask_b {k j : ℕ} (hk : k = 0 ∨ k = 8) (hj : j < 32) :
    (~~~(0xff#32 <<< k)).getLsbD j = !decide (k ≤ j ∧ j < k + 8) := by
  have h : ∀ j < 32, (~~~(0xff#32 <<< 0)).getLsbD j = !decide (0 ≤ j ∧ j < 0 + 8) ∧
      (~~~(0xff#32 <<< 8)).getLsbD j = !decide (8 ≤ j ∧ j < 8 + 8) := by decide
  rcases hk with rfl | rfl
  · exact (h j hj).1
  · exact (h j hj).2

theorem mask_w {j : ℕ} (hj : j < 32) : (0xffff0000 : Word).getLsbD j = decide (16 ≤ j) := by
  revert j
  decide

theorem getLsbD_trunc_b (x : Word) {j : ℕ} :
    (Width.trunc .b x).getLsbD j = (decide (j < 8) && x.getLsbD j) := by
  simp only [Width.trunc, Width.bits, Width.bytes, BitVec.getLsbD_setWidth]
  by_cases hj : j < 8
  · rw [decide_eq_true (show j < 32 by omega), Bool.true_and]
  · rw [decide_eq_false hj, Bool.false_and, Bool.and_false]

/-- A bit of a register after a byte of it was written. -/
theorem getLsbD_setByte (x v : Word) {k j : ℕ} (hk : k = 0 ∨ k = 8) (hj : j < 32) :
    (x &&& ~~~(0xff#32 <<< k) ||| Width.trunc .b v <<< k).getLsbD j =
      if k ≤ j ∧ j < k + 8 then v.getLsbD (j - k) else x.getLsbD j := by
  rw [BitVec.getLsbD_or, BitVec.getLsbD_and, mask_b hk hj, BitVec.getLsbD_shiftLeft]
  simp only [Width.trunc, Width.bits, Width.bytes, BitVec.getLsbD_setWidth, hj, decide_true,
    Bool.true_and]
  by_cases hin : k ≤ j ∧ j < k + 8
  · rw [if_pos hin, decide_eq_true hin, decide_eq_false (show ¬ j < k by omega),
      decide_eq_true (show j - k < 32 by omega), decide_eq_true (show j - k < 8 * 1 by omega)]
    simp
  · rw [if_neg hin, decide_eq_false hin]
    by_cases hlt : j < k
    · simp [hlt]
    · rw [decide_eq_false (show ¬ j - k < 8 * 1 by omega)]
      simp

/-- A bit of a register after its low half was written. -/
theorem getLsbD_setHalf (x v : Word) {j : ℕ} (hj : j < 32) :
    (x &&& 0xffff0000 ||| Width.trunc .w v).getLsbD j =
      if j < 16 then v.getLsbD j else x.getLsbD j := by
  rw [BitVec.getLsbD_or, BitVec.getLsbD_and, mask_w hj]
  simp only [Width.trunc, Width.bits, Width.bytes, BitVec.getLsbD_setWidth, hj, decide_true,
    Bool.true_and]
  by_cases hin : j < 16
  · rw [if_pos hin, decide_eq_false (show ¬ 16 ≤ j by omega), decide_eq_true (show j < 8 * 2 by omega)]
    simp
  · rw [if_neg hin, decide_eq_true (show 16 ≤ j by omega), decide_eq_false (show ¬ j < 8 * 2 by omega)]
    simp

/-- The other registers of the width are as before. -/
theorem reg_setReg_ne {d : Width} {i j : Fin 8} (h : j ≠ i) (v : Word) :
    (c.setReg d i v).reg d j = c.reg d j := by
  cases d with
  | b =>
    simp only [reg, setReg]
    by_cases hreg : j &&& 3 = i &&& 3
    · -- the two bytes of one register
      rw [hreg, Function.update_self]
      have hki : 8 * (i.val / 4) = 0 ∨ 8 * (i.val / 4) = 8 := by omega
      have hkj : 8 * (j.val / 4) = 0 ∨ 8 * (j.val / 4) = 8 := by omega
      have hne : 8 * (j.val / 4) ≠ 8 * (i.val / 4) := by
        revert h hreg
        revert i j
        decide
      apply BitVec.eq_of_getLsbD_eq
      intro n hn
      rw [getLsbD_trunc_b, getLsbD_trunc_b, BitVec.getLsbD_ushiftRight, BitVec.getLsbD_ushiftRight]
      by_cases h8 : n < 8
      · rw [getLsbD_setByte _ _ hki (by omega), if_neg (by omega)]
      · rw [decide_eq_false h8, Bool.false_and, Bool.false_and]
    · rw [Function.update_of_ne hreg]
  | w =>
    simp only [reg, setReg]
    rw [Function.update_of_ne h]
  | l =>
    simp only [reg, setReg]
    rw [Function.update_of_ne h]

/-- Above a byte, neither is any other 32-bit register changed. -/
theorem reg_l_setReg_ne {d : Width} (hd : d ≠ .b) {i j : Fin 8} (h : j ≠ i) (v : Word) :
    (c.setReg d i v).reg .l j = c.reg .l j := by
  cases d with
  | b => exact absurd rfl hd
  | w => exact Function.update_of_ne h _ _
  | l => exact Function.update_of_ne h _ _

theorem reg_eq_trunc {d : Width} (hd : d ≠ .b) (i : Fin 8) : c.reg d i = d.trunc (c.reg .l i) := by
  cases d with
  | b => exact absurd rfl hd
  | w => rfl
  | l => exact (Width.trunc_of_lt (c.reg .l i).isLt).symm

@[simp] theorem linear_setReg (d : Width) (i : Fin 8) (v addr : Word) (s : Fin 6) :
    (c.setReg d i v).linear addr s = c.linear addr s := by
  cases d <;> rfl

/-- A write of what is there changes nothing. -/
theorem setReg_eq_self {d : Width} {i : Fin 8} {v : Word} (h : c.reg d i = d.trunc v) :
    c.setReg d i v = c := by
  have hgpr : ∀ (k : Fin 8) (x : Word), x = c.gpr k →
      ({ c with gpr := Function.update c.gpr k x } : CpuState) = c := by
    rintro k x rfl
    rw [Function.update_eq_self]
  cases d with
  | b =>
    refine hgpr _ _ ?_
    have hk : 8 * (i.val / 4) = 0 ∨ 8 * (i.val / 4) = 8 := by omega
    apply BitVec.eq_of_getLsbD_eq
    intro j hj
    rw [getLsbD_setByte _ _ hk hj]
    by_cases hin : 8 * (i.val / 4) ≤ j ∧ j < 8 * (i.val / 4) + 8
    · have hbit := congrArg (fun x : Word => x.getLsbD (j - 8 * (i.val / 4))) h
      simp only [reg, Width.trunc, Width.bits, Width.bytes, BitVec.getLsbD_setWidth,
        BitVec.getLsbD_ushiftRight] at hbit
      rw [decide_eq_true (show j - 8 * (i.val / 4) < 8 * 1 by omega),
        decide_eq_true (show j - 8 * (i.val / 4) < 32 by omega), Nat.add_sub_cancel' hin.1] at hbit
      rw [if_pos hin]
      simpa using hbit.symm
    · rw [if_neg hin]
  | w =>
    refine hgpr _ _ ?_
    apply BitVec.eq_of_getLsbD_eq
    intro j hj
    rw [getLsbD_setHalf _ _ hj]
    by_cases hin : j < 16
    · have hbit := congrArg (fun x : Word => x.getLsbD j) h
      simp only [reg, Width.trunc, Width.bits, Width.bytes, BitVec.getLsbD_setWidth] at hbit
      rw [decide_eq_true (show j < 8 * 2 by omega), decide_eq_true hj] at hbit
      rw [if_pos hin]
      simpa using hbit.symm
    · rw [if_neg hin]
  | l =>
    refine hgpr _ _ ?_
    rw [← Width.trunc_of_lt (d := .l) v.isLt, ← h]
    rfl

theorem reg_of_gpr {c c' : CpuState} (h : c.gpr = c'.gpr) (d : Width) (i : Fin 8) :
    c.reg d i = c'.reg d i := by
  cases d <;> simp only [reg, h]

/-- Writes of one value to two registers agree only if both have it already. -/
theorem gpr_setReg_iff {d : Width} {i j : Fin 8} (h : i ≠ j) (v : Word) :
    (c.setReg d i v).gpr = (c.setReg d j v).gpr ↔ c.reg d i = d.trunc v ∧ c.reg d j = d.trunc v := by
  constructor
  · intro heq
    have hi := reg_of_gpr heq d i
    have hj := reg_of_gpr heq d j
    rw [reg_setReg, reg_setReg_ne c h] at hi
    rw [reg_setReg, reg_setReg_ne c h.symm] at hj
    exact ⟨hi.symm, hj⟩
  · intro ⟨hi, hj⟩
    rw [setReg_eq_self c hi, setReg_eq_self c hj]

end CpuState

section Left

variable {P : Type}

/-- What is left of the processor by a command that changes no register. -/
theorem cpu_of_keeps {α : Type} {k : Cmd (Machine P) α} {m m' : Machine P} {a : α}
    [hk : Keeps (OnCpu (· = m.cpu)) k] (h : k m = .ok a m') : m'.cpu = m.cpu := by
  have hc := hk.ends m rfl
  rw [h] at hc
  exact hc

theorem reg_setReg_l (m : Machine P) (i : Fin 8) (v : Word) : (m.setReg .l i v).reg .l i = v := by
  have h : (m.setReg .l i v).reg .l i = Function.update m.cpu.gpr i v i := rfl
  rw [h, Function.update_self]

theorem reg_of_cpu {m m' : Machine P} (h : m'.cpu = m.cpu) (d : Width) (i : Fin 8) :
    m'.reg d i = m.reg d i := congrArg (fun c => c.reg d i) h

theorem helperV_l {f : Width → Helper P} {eip : Word} {m : Machine P}
    (h : m.ops.isOperandSize16 = false) : helperV f eip m = f .l eip m := by
  unfold helperV
  rw [read_bind_run, if_neg (by rw [h]; exact Bool.false_ne_true)]

variable [Bus P]

/-- A fetch leaves the processor and the operand records. -/
theorem fetch_same {eip v : Word} {len : ℕ} {m m' : Machine P} (h : instrFetch eip len m = .ok v m') :
    m'.cpu = m.cpu ∧ m'.ops = m.ops := by
  obtain ⟨heq, -⟩ := swaddrRead_ok h
  rw [heq]
  exact ⟨rfl, rfl⟩

theorem bits02_regNo : ∀ i : Fin 8, bits02 (regNo i) = i := by decide

theorem writeOperand_reg {m : Machine P} {d : Width} {k : Slot} {i : Fin 8} (v : Word)
    (htype : m.type k = .reg) (hloc : m.loc k = regNo i) :
    writeOperand d k v m = .ok () (m.setReg d i v) := by
  have hi : (regNo i).toNat < 8 := by
    rw [regNo, BitVec.toNat_ofNat]
    omega
  unfold writeOperand checkRegIndex
  rw [read_bind_run, read_bind_run, if_pos htype, hloc, if_pos hi, bits02_regNo]
  rfl

end Left

end Nemu
