/-
# Widths and flags

Facts about `Width` and the bits of `eflags`: truncation is `mod 2 ^ bits`, the
flags are independent of each other, and `parity` is that of the lowest byte.

Key theorems: `Width.toNat_trunc`, `Width.trunc_sub`, `flag_setFlag`,
`parity_eq`.
-/
import Nemu.Cpu.Arith

namespace Nemu

open Bytes Cmd Instr

namespace Width

theorem bits_pos (d : Width) : 0 < d.bits := by cases d <;> decide

theorem bits_le (d : Width) : d.bits ≤ 32 := by cases d <;> decide

theorem toNat_trunc (d : Width) (x : Word) : (d.trunc x).toNat = x.toNat % 2 ^ d.bits := by
  have hle : 2 ^ d.bits ≤ 2 ^ 32 := Nat.pow_le_pow_right (by norm_num) d.bits_le
  have hlt : x.toNat % 2 ^ d.bits < 2 ^ d.bits := Nat.mod_lt _ (by positivity)
  rw [trunc, BitVec.toNat_setWidth, BitVec.toNat_setWidth, Nat.mod_eq_of_lt (by omega)]

theorem toNat_trunc_lt (d : Width) (x : Word) : (d.trunc x).toNat < 2 ^ d.bits := by
  rw [toNat_trunc]
  exact Nat.mod_lt _ (by positivity)

/-- A word that fits is its own truncation. -/
theorem trunc_of_lt {d : Width} {x : Word} (h : x.toNat < 2 ^ d.bits) : d.trunc x = x := by
  apply BitVec.eq_of_toNat_eq
  rw [toNat_trunc, Nat.mod_eq_of_lt h]

@[simp] theorem trunc_trunc (d : Width) (x : Word) : d.trunc (d.trunc x) = d.trunc x :=
  trunc_of_lt (d.toNat_trunc_lt x)

theorem trunc_sub (d : Width) (x y : Word) :
    d.trunc (x - y) = (x.setWidth d.bits - y.setWidth d.bits).setWidth 32 := by
  have h := BitVec.setWidth_add (x - y) y d.bits_le
  rw [BitVec.sub_add_cancel] at h
  rw [trunc, h, BitVec.add_sub_cancel]

/-- Words of the width whose difference is zero there. -/
theorem trunc_sub_eq_zero {d : Width} {x y : Word} (hx : d.trunc x = x) (hy : d.trunc y = y) :
    d.trunc (x - y) = 0 ↔ x = y := by
  refine ⟨fun h => ?_, fun h => by rw [h, BitVec.sub_self]; cases d <;> rfl⟩
  have hlow : (x.setWidth d.bits - y.setWidth d.bits).setWidth 32 = (0 : Word) := (d.trunc_sub x y).symm.trans h
  have hzero : x.setWidth d.bits - y.setWidth d.bits = 0 := by
    have hcut := congrArg (BitVec.setWidth d.bits) hlow
    rw [BitVec.setWidth_setWidth_of_le _ d.bits_le, BitVec.setWidth_eq] at hcut
    rw [hcut]
    exact BitVec.setWidth_zero ..
  have heq : x.setWidth d.bits = y.setWidth d.bits := by
    rw [← BitVec.sub_add_cancel (x.setWidth d.bits) (y.setWidth d.bits), hzero]
    exact BitVec.zero_add _
  rw [← hx, ← hy, trunc, trunc, heq]

theorem msb_eq (d : Width) (x : Word) : d.msb x = (x.setWidth d.bits).msb := by
  rw [msb, BitVec.msb_eq_getLsbD_last, BitVec.getLsbD_setWidth]
  have := d.bits_pos
  rw [show decide (d.bits - 1 < d.bits) = true from decide_eq_true (by omega), Bool.true_and]

end Width

/-! ### The bits of eflags -/

theorem Flag.bit_lt (f : Flag) : f.bit < 32 := by cases f <;> decide

theorem Flag.bit_inj {f g : Flag} (h : f.bit = g.bit) : f = g := by
  revert h
  cases f <;> cases g <;> decide

/-- Setting a flag sets its bit. -/
theorem CpuState.getLsbD_setFlag (c : CpuState) (f : Flag) (b : Bool) (i : ℕ) :
    (c.setFlag f b).eflags.getLsbD i = if i = f.bit then b else c.eflags.getLsbD i := by
  have hf := f.bit_lt
  by_cases hi : i < 32
  · have hbit : (1#32 <<< f.bit).getLsbD i = decide (i = f.bit) := by
      rw [BitVec.getLsbD_shiftLeft, BitVec.getLsbD_one]
      by_cases h : i = f.bit
      · subst h
        simp [hf]
      · simp [h, hi]
        omega
    have hi' : decide (i < 32) = true := decide_eq_true hi
    unfold CpuState.setFlag
    cases b with
    | true =>
      simp only [if_true, BitVec.getLsbD_or, hbit]
      by_cases h : i = f.bit <;>
        simp only [h, decide_true, decide_false, Bool.or_true, Bool.or_false, if_true, if_false]
    | false =>
      simp only [Bool.false_eq_true, if_false, BitVec.getLsbD_and, BitVec.getLsbD_not, hbit, hi', Bool.true_and]
      by_cases h : i = f.bit <;>
        simp only [h, decide_true, decide_false, Bool.not_true, Bool.not_false, Bool.and_false, Bool.and_true,
          if_true, if_false]
  · have hne : i ≠ f.bit := by omega
    rw [if_neg hne, BitVec.getLsbD_of_ge _ _ (by omega), BitVec.getLsbD_of_ge _ _ (by omega)]

/-- It changes no other flag. -/
theorem CpuState.flag_setFlag (c : CpuState) (f g : Flag) (b : Bool) :
    (c.setFlag f b).flag g = if g = f then b else c.flag g := by
  unfold CpuState.flag
  rw [CpuState.getLsbD_setFlag]
  by_cases h : g = f
  · rw [if_pos h, if_pos (congrArg Flag.bit h)]
  · rw [if_neg h, if_neg fun hb => h (Flag.bit_inj hb)]

namespace Machine

variable {P : Type} (m : Machine P)

@[simp] theorem flag_setFlag (f g : Flag) (b : Bool) :
    (m.setFlag f b).flag g = if g = f then b else m.flag g := m.cpu.flag_setFlag f g b

@[simp] theorem flag_setReg (d : Width) (i : Fin 8) (v : Word) (f : Flag) :
    (m.setReg d i v).flag f = m.flag f := by
  cases d <;> rfl

@[simp] theorem flag_setBus (p : P) (f : Flag) : (m.setBus p).flag f = m.flag f := rfl

@[simp] theorem flag_setOperand (k : Slot) (o : Operand) (f : Flag) :
    (m.setOperand k o).flag f = m.flag f := rfl

/-! ### The operand records -/

variable (k k' : Slot)

@[simp] theorem operand_setFlag (f : Flag) (b : Bool) : (m.setFlag f b).operand = m.operand := rfl

@[simp] theorem operand_setBus (p : P) : (m.setBus p).operand = m.operand := rfl

@[simp] theorem operand_setOperand (o : Operand) :
    (m.setOperand k o).operand k' = if k' = k then o else m.operand k' :=
  Function.update_apply ..

@[simp] theorem val_setVal (v : Word) : (m.setVal k v).val k' = if k' = k then v else m.val k' := by
  unfold val setVal
  rw [operand_setOperand]
  split <;> rfl

@[simp] theorem val_setLoc (v : Word) : (m.setLoc k v).val k' = m.val k' := by
  unfold val setLoc
  rw [operand_setOperand]
  split
  · next h => rw [h]
  · rfl

@[simp] theorem val_setType (t : OpType) : (m.setType k t).val k' = m.val k' := by
  unfold val setType
  rw [operand_setOperand]
  split
  · next h => rw [h]
  · rfl

@[simp] theorem val_setSize (n : ℕ) : (m.setSize k n).val k' = m.val k' := by
  unfold val setSize
  rw [operand_setOperand]
  split
  · next h => rw [h]
  · rfl

@[simp] theorem val_setOpSreg (n : ℕ) : (m.setOpSreg k n).val k' = m.val k' := by
  unfold val setOpSreg
  rw [operand_setOperand]
  split
  · next h => rw [h]
  · rfl

@[simp] theorem val_setBus (p : P) : (m.setBus p).val k = m.val k := rfl

/-- A register of width `d` fits it. -/
theorem toNat_reg_lt (d : Width) (i : Fin 8) : (m.reg d i).toNat < 2 ^ d.bits := by
  cases d
  · exact Width.toNat_trunc_lt .b _
  · exact Width.toNat_trunc_lt .w _
  · exact BitVec.isLt _

end Machine

/-- The flags after a subtraction. -/
theorem setSubFlags_run {P : Type} (d : Width) (carry : Bool) (dest src result : Word) (m : Machine P) :
    ∃ m', setSubFlags d carry dest src result m = .ok () m' ∧ m'.flag .CF = carry ∧
      m'.flag .OF = (d.msb dest != d.msb src && d.msb result == d.msb src) ∧
      m'.flag .SF = d.msb result ∧ m'.flag .ZF = (result == 0) ∧ m'.flag .PF = parity result :=
  ⟨_, rfl, by simp, by simp, by simp, by simp, by simp⟩

/-! ### Reads -/

section Reads

variable {P : Type} [Bus P]

/-- A read of linear memory changes the bus only, and fits its length. -/
theorem lnaddrRead_ends (addr : Word) (len : ℕ) (m : Machine P) :
    Ends (fun v m' => (∃ p, m' = m.setBus p) ∧ v.toNat < 2 ^ (8 * len)) (fun _ => False)
      (lnaddrRead addr len m) := by
  unfold lnaddrRead
  by_cases hl : len = 1 ∨ len = 2 ∨ len = 4
  · rw [if_pos hl, read_bind_run, bind_run, bus, access]
    cases Bus.lnaddrRead m.cpu.cr0 m.cpu.cr3 addr len m.bus with
    | none => trivial
    | some r =>
      refine ⟨⟨r.2, rfl⟩, ?_⟩
      rw [BitVec.toNat_setWidth]
      exact (Nat.mod_le _ _).trans_lt r.1.isLt
  · rw [if_neg hl]
    trivial

theorem swaddrRead_ends (addr : Word) (len sreg : ℕ) (m : Machine P) :
    Ends (fun v m' => (∃ p, m' = m.setBus p) ∧ v.toNat < 2 ^ (8 * len)) (fun _ => False)
      (swaddrRead addr len sreg m) := by
  unfold swaddrRead segTranslate
  by_cases hl : len = 1 ∨ len = 2 ∨ len = 4
  · by_cases hs : sreg < 4
    · simp only [if_pos hl, if_pos hs, read_bind_run]
      exact lnaddrRead_ends _ _ m
    · simp only [if_pos hl, if_neg hs]
      trivial
  · simp only [if_neg hl]
    trivial

end Reads

/-! ### Parity -/

/-- The lowest byte has an even number of ones. -/
def evenParity {n : ℕ} (x : BitVec n) : Bool :=
  ((List.range 8).map fun i => (x.getLsbD i).toNat).sum % 2 == 0

theorem parity_eq (r : Word) : parity r = evenParity r := by
  have hbits : ∀ b0 b1 b2 b3 b4 b5 b6 b7 : Bool,
      (!((((b0 ^^ b4) ^^ (b2 ^^ b6)) ^^ ((b1 ^^ b5) ^^ (b3 ^^ b7))))) =
        ((b0.toNat + (b1.toNat + (b2.toNat + (b3.toNat + (b4.toNat + (b5.toNat +
          (b6.toNat + (b7.toNat + 0)))))))) % 2 == 0) := by decide
  have h := hbits (r.getLsbD 0) (r.getLsbD 1) (r.getLsbD 2) (r.getLsbD 3) (r.getLsbD 4)
    (r.getLsbD 5) (r.getLsbD 6) (r.getLsbD 7)
  refine Eq.trans ?_ h
  simp [parity]

end Nemu
