/-
# What the parts of an instruction leave unchanged

Decoders read registers and memory and fill the operand records, so whatever is
said of the registers, flags and segments alone (`OnCpu`) still holds after
them; an access to memory changes the bus only. `write_operand` changes one
register, or memory.

Key definitions: `OnCpu`, `Stored`.
Key theorems: the instances of `Keeps` for the decoders, `writeOperand_ok`,
`CpuState.reg_setReg`.
-/
import Nemu.Cpu.Flags

namespace Nemu

open Bytes Cmd

set_option synthInstance.maxSize 2000

section Frame

variable {P : Type}

/-- A property of the processor's registers. -/
def OnCpu (J : CpuState → Prop) (m : Machine P) : Prop := J m.cpu

variable {J : CpuState → Prop} {I : Machine P → Prop} {E : Failure → Prop}

/-- An access of this length is accepted, or its assertion may fail. -/
class LenOk (E : Failure → Prop) (len : ℕ) : Prop where
  ok : len = 1 ∨ len = 2 ∨ len = 4 ∨ E .length

instance (len : ℕ) : LenOk (fun _ => True) len := ⟨.inr (.inr (.inr trivial))⟩
instance : LenOk E 1 := ⟨.inl rfl⟩
instance : LenOk E 2 := ⟨.inr (.inl rfl)⟩
instance : LenOk E 4 := ⟨.inr (.inr (.inl rfl))⟩
instance (d : Width) : LenOk E d.bytes := by
  cases d
  · exact ⟨.inl rfl⟩
  · exact ⟨.inr (.inl rfl)⟩
  · exact ⟨.inr (.inr (.inl rfl))⟩

/-- The operand records may change. -/
class OpsKept (I : Machine P → Prop) : Prop where
  setOperand : ∀ (k : Slot) (o : Operand), Kept I (Machine.setOperand · k o)
  copyOperand : ∀ k k' : Slot, Kept I fun m : Machine P => m.setOperand k (m.operand k')
  setType : ∀ (k : Slot) (t : OpType), Kept I (Machine.setType · k t)
  setSize : ∀ (k : Slot) (n : ℕ), Kept I (Machine.setSize · k n)
  setLoc : ∀ (k : Slot) (v : Word), Kept I (Machine.setLoc · k v)
  setOpSreg : ∀ (k : Slot) (n : ℕ), Kept I (Machine.setOpSreg · k n)
  setVal : ∀ (k : Slot) (v : Word), Kept I (Machine.setVal · k v)
  setOpcode : ∀ v : Word, Kept I (Machine.setOpcode · v)
  setOperandSize16 : ∀ b : Bool, Kept I (Machine.setOperandSize16 · b)

/-- They may change as decoders change them. -/
class DecodeKept (I : Machine P → Prop) : Prop where
  setOperand : ∀ (k : Slot) (o : Operand), Kept I (Machine.setOperand · k o)
  copyOperand : ∀ k k' : Slot, Kept I fun m : Machine P => m.setOperand k (m.operand k')
  setType : ∀ (k : Slot) (t : OpType), Kept I (Machine.setType · k t)
  setSize : ∀ (k : Slot) (n : ℕ), Kept I (Machine.setSize · k n)
  setLoc : ∀ (k : Slot) (v : Word), Kept I (Machine.setLoc · k v)
  setOpSreg : ∀ (k : Slot) (n : ℕ), Kept I (Machine.setOpSreg · k n)
  setVal : ∀ (k : Slot) (v : Word), Kept I (Machine.setVal · k v)
  setOpcode : ∀ v : Word, Kept I (Machine.setOpcode · v)

/-- An operand in a register or in memory may be decoded into this slot. -/
class RmKept (I : Machine P → Prop) (k : Slot) : Prop where
  setType : ∀ t : OpType, Kept I (Machine.setType · k t)
  setLoc : ∀ v : Word, Kept I (Machine.setLoc · k v)
  setOpSreg : ∀ n : ℕ, Kept I (Machine.setOpSreg · k n)
  setVal : ∀ v : Word, Kept I (Machine.setVal · k v)

/-- A register may be decoded into this slot. -/
class RegKept (I : Machine P → Prop) (k : Slot) : Prop where
  setType : Kept I (Machine.setType · k .reg)
  setLoc : ∀ v : Word, Kept I (Machine.setLoc · k v)
  setVal : ∀ v : Word, Kept I (Machine.setVal · k v)

/-- The bus may change, as reads of memory change it. -/
class ReadKept [Bus P] (I : Machine P → Prop) (E : Failure → Prop := fun _ => True) : Prop where
  assertion : Allows E .assertion
  lnaddrRead : ∀ (addr : Word) (len : ℕ) [LenOk E len], Keeps I (lnaddrRead addr len) E

/-- The bus may change, as its accesses change it. -/
class BusKept [Bus P] (I : Machine P → Prop) (E : Failure → Prop := fun _ => True) : Prop where
  assertion : Allows E .assertion
  lnaddrRead : ∀ (addr : Word) (len : ℕ) [LenOk E len], Keeps I (lnaddrRead addr len) E
  lnaddrWrite : ∀ (addr : Word) (len : ℕ) (data : Word), Keeps I (lnaddrWrite addr len data) E
  pioRead : ∀ (addr : BitVec 16) (len : ℕ), Keeps I (bus (Bus.pioRead addr len)) E
  pioWrite : ∀ (addr : BitVec 16) (len : ℕ) (data : Word), Keeps I (bus (Bus.pioWrite addr len data)) E
  i8259AckIntr : Keeps I (bus Bus.i8259AckIntr) E
  initTLB : Keeps I (write fun m => m.setBus (Bus.initTLB m.bus)) E

attribute [instance] OpsKept.setOperandSize16 DecodeKept.setOperand DecodeKept.copyOperand
  DecodeKept.setType DecodeKept.setSize DecodeKept.setLoc DecodeKept.setOpSreg DecodeKept.setVal
  DecodeKept.setOpcode
  RmKept.setType RmKept.setLoc RmKept.setOpSreg RmKept.setVal RegKept.setType RegKept.setLoc
  RegKept.setVal ReadKept.lnaddrRead BusKept.lnaddrWrite BusKept.pioRead BusKept.pioWrite
  BusKept.i8259AckIntr BusKept.initTLB

instance [Bus P] [h : BusKept I E] : ReadKept I E := ⟨h.assertion, h.lnaddrRead⟩

instance [h : OpsKept I] : DecodeKept I :=
  ⟨h.setOperand, h.copyOperand, h.setType, h.setSize, h.setLoc, h.setOpSreg, h.setVal, h.setOpcode⟩

instance [h : DecodeKept I] (k : Slot) : RmKept I k :=
  ⟨h.setType k, h.setLoc k, h.setOpSreg k, h.setVal k⟩

instance [h : DecodeKept I] (k : Slot) : RegKept I k := ⟨h.setType k .reg, h.setLoc k, h.setVal k⟩

instance : OpsKept (P := P) (OnCpu J) where
  setOperand _ _ := ⟨fun _ h => h⟩
  copyOperand _ _ := ⟨fun _ h => h⟩
  setType _ _ := ⟨fun _ h => h⟩
  setSize _ _ := ⟨fun _ h => h⟩
  setLoc _ _ := ⟨fun _ h => h⟩
  setOpSreg _ _ := ⟨fun _ h => h⟩
  setVal _ _ := ⟨fun _ h => h⟩
  setOpcode _ := ⟨fun _ h => h⟩
  setOperandSize16 _ := ⟨fun _ h => h⟩

instance (b : P) : Kept (OnCpu J) (Machine.setBus · b) := ⟨fun _ h => h⟩
instance (s : NemuState) : Kept (OnCpu J) (Machine.setState (P := P) · s) := ⟨fun _ h => h⟩

theorem keeps_bus {α : Type} [he : Allows E .assertion] (f : P → Option (α × P))
    (h : ∀ p, Kept I (Machine.setBus · p)) : Keeps I (bus f) E := by
  refine ⟨fun m hm => ?_⟩
  unfold bus access
  cases hf : f m.bus with
  | none =>
    simp only [hf, Option.map_none]
    exact he.allowed
  | some r =>
    simp only [hf, Option.map_some]
    exact (h r.2).kept m hm

section Access

variable [Bus P]

theorem keeps_lnaddrRead (addr : Word) (len : ℕ) [hl : LenOk E len]
    (h : ∀ cr0 cr3 : Word, Keeps I (bus (P := P) (Bus.lnaddrRead cr0 cr3 addr len)) E) :
    Keeps I (lnaddrRead (P := P) addr len) E := by
  unfold lnaddrRead
  by_cases hc : len = 1 ∨ len = 2 ∨ len = 4
  · rw [if_pos hc]
    have hb := fun c : Word × Word => h c.1 c.2
    infer_instance
  · have hE : Allows E .length := ⟨by have := hl.ok; tauto⟩
    rw [if_neg hc]
    infer_instance

/-- What does not look at the bus does not mind its accesses. -/
instance [ha : Allows E .assertion] [h : ∀ p : P, Kept I (Machine.setBus · p)] : BusKept I E where
  assertion := ha
  lnaddrRead addr len := keeps_lnaddrRead addr len fun _ _ => keeps_bus _ h
  lnaddrWrite addr len data := by
    have hb := fun c : Word × Word => keeps_bus (E := E) (Bus.lnaddrWrite c.1 c.2 addr len data) h
    unfold Nemu.lnaddrWrite
    infer_instance
  pioRead _ _ := keeps_bus _ h
  pioWrite _ _ _ := keeps_bus _ h
  i8259AckIntr := keeps_bus _ h
  initTLB := ⟨fun m hm => (h _).kept m hm⟩

section Reads

variable [hb : ReadKept I E]

instance (addr : Word) (sreg : ℕ) : Keeps I (segTranslate (P := P) addr sreg) E := by
  have := hb.assertion
  unfold segTranslate
  infer_instance

instance (addr : Word) (len sreg : ℕ) [hl : LenOk E len] : Keeps I (swaddrRead addr len sreg) E := by
  unfold swaddrRead
  by_cases hc : len = 1 ∨ len = 2 ∨ len = 4
  · rw [if_pos hc]
    infer_instance
  · have hE : Allows E .length := ⟨by have := hl.ok; tauto⟩
    rw [if_neg hc]
    infer_instance

instance (addr : Word) (len : ℕ) [LenOk E len] : Keeps I (instrFetch addr len) E := by
  unfold instrFetch
  infer_instance

end Reads

instance [hb : BusKept I E] (addr : Word) (len : ℕ) (data : Word) (sreg : ℕ) [hl : LenOk E len] :
    Keeps I (swaddrWrite addr len data sreg) E := by
  unfold swaddrWrite
  by_cases hc : len = 1 ∨ len = 2 ∨ len = 4
  · rw [if_pos hc]
    infer_instance
  · have hE : Allows E .length := ⟨by have := hl.ok; tauto⟩
    rw [if_neg hc]
    infer_instance

end Access

/-! ### The decoders -/

section Decoders

variable (d : Width) (eip : Word)

instance (k : Slot) (i : Fin 8) [RegKept I k] : Keeps I (setRegOperand (P := P) d k i) E := by
  unfold setRegOperand
  infer_instance

instance (k : Slot) [RegKept I k] : Keeps I (decodeA (P := P) d k) E := by
  unfold decodeA
  infer_instance

instance (k : Slot) [RegKept I k] : Keeps I (decodeRInternal (P := P) d k) E := by
  unfold decodeRInternal
  infer_instance

/-- The displacement of a form is no byte, or has an accepted length. -/
theorem addrForm_dispSize (m sib : Word) :
    (addrForm m sib).dispSize = 0 ∨ (addrForm m sib).dispSize = 1 ∨ (addrForm m sib).dispSize = 4 := by
  unfold addrForm
  dsimp only
  split_ifs <;> simp

variable [Bus P] [hb : ReadKept I E]

instance (m sib addr : Word) : Keeps I (if (addrForm m sib).dispSize = 0 then pure 0
    else instrFetch (P := P) addr (addrForm m sib).dispSize) E := by
  rcases addrForm_dispSize m sib with h | h | h
  · rw [if_pos h]
    infer_instance
  · rw [h]
    infer_instance
  · rw [h]
    infer_instance

instance (m : Word) (rm : Slot) [RmKept I rm] : Keeps I (loadAddr (P := P) eip m rm) E := by
  have := hb.assertion
  unfold loadAddr
  infer_instance

instance (rm reg : Slot) [RmKept I rm] [RegKept I reg] :
    Keeps I (readModRM (P := P) d eip rm reg) E := by
  unfold readModRM
  dsimp only
  infer_instance

variable [DecodeKept I]

instance (rm reg : Slot) : Keeps I (decodeRmInternal (P := P) d eip rm reg) E := by
  unfold decodeRmInternal
  infer_instance

instance : Keeps I (decodeN (P := P) eip) E := by unfold decodeN; infer_instance
instance : Keeps I (decodeI (P := P) d eip) E := by unfold decodeI; infer_instance
instance : Keeps I (decodeSi (P := P) d eip) E := by unfold decodeSi; infer_instance
instance : Keeps I (decodeR2rm (P := P) d eip) E := by unfold decodeR2rm; infer_instance
instance : Keeps I (decodeRm2r (P := P) d eip) E := by unfold decodeRm2r; infer_instance
instance : Keeps I (decodeI2a (P := P) d eip) E := by unfold decodeI2a; infer_instance
instance : Keeps I (decodeIRm2r (P := P) d eip) E := by unfold decodeIRm2r; infer_instance
instance : Keeps I (decodeI2rm (P := P) d eip) E := by unfold decodeI2rm; infer_instance
instance : Keeps I (decodeI2r (P := P) d eip) E := by unfold decodeI2r; infer_instance
instance : Keeps I (decodeRm (P := P) d eip) E := by unfold decodeRm; infer_instance
instance : Keeps I (decodeR (P := P) d eip) E := by unfold decodeR; infer_instance
instance : Keeps I (decodeSi2rm (P := P) d eip) E := by unfold decodeSi2rm; infer_instance
instance : Keeps I (decodeSiRm2r (P := P) d eip) E := by unfold decodeSiRm2r; infer_instance
instance : Keeps I (decodeRm1 (P := P) d eip) E := by unfold decodeRm1; infer_instance
instance : Keeps I (decodeRmCl (P := P) d eip) E := by unfold decodeRmCl; infer_instance
instance : Keeps I (decodeRmImm (P := P) d eip) E := by unfold decodeRmImm; infer_instance

end Decoders

/-! ### Nothing here jumps -/

section Straight

variable [Bus P] (d : Width) (eip : Word)

omit [Bus P] in
instance {α : Type} (f : P → Option (α × P)) : Straight (bus f) := by unfold bus; infer_instance
instance (addr : Word) (len : ℕ) : Straight (lnaddrRead (P := P) addr len) := by
  unfold lnaddrRead
  infer_instance
instance (addr : Word) (len : ℕ) (data : Word) : Straight (lnaddrWrite (P := P) addr len data) := by
  unfold lnaddrWrite
  infer_instance
omit [Bus P] in
instance (addr : Word) (sreg : ℕ) : Straight (segTranslate (P := P) addr sreg) := by
  unfold segTranslate
  infer_instance
instance (addr : Word) (len sreg : ℕ) : Straight (swaddrRead (P := P) addr len sreg) := by
  unfold swaddrRead
  infer_instance
instance (addr : Word) (len : ℕ) (data : Word) (sreg : ℕ) :
    Straight (swaddrWrite (P := P) addr len data sreg) := by
  unfold swaddrWrite
  infer_instance
instance (addr : Word) (len : ℕ) : Straight (instrFetch (P := P) addr len) := by
  unfold instrFetch
  infer_instance
instance (m : Word) (rm : Slot) : Straight (loadAddr (P := P) eip m rm) := by
  unfold loadAddr
  infer_instance
instance (rm reg : Slot) : Straight (readModRM (P := P) d eip rm reg) := by
  unfold readModRM
  dsimp only
  infer_instance
instance (rm reg : Slot) : Straight (decodeRmInternal (P := P) d eip rm reg) := by
  unfold decodeRmInternal
  infer_instance
instance : Straight (decodeR2rm (P := P) d eip) := by unfold decodeR2rm; infer_instance
instance : Straight (decodeRm2r (P := P) d eip) := by unfold decodeRm2r; infer_instance

end Straight

end Frame

/-! ### Writing an operand -/

/-- A register that was written reads back the value, truncated to the width. -/
theorem CpuState.reg_setReg (c : CpuState) (d : Width) (i : Fin 8) (v : Word) :
    (c.setReg d i v).reg d i = d.trunc v := by
  cases d with
  | b =>
    have hk : 8 * (i.val / 4) = 0 ∨ 8 * (i.val / 4) = 8 := by omega
    simp only [CpuState.reg, CpuState.setReg, Function.update_self]
    have hmask : ∀ j < 8, (~~~(0xff#32 <<< 8)).getLsbD (8 + j) = false := by decide
    rcases hk with hk | hk
    · rw [hk]
      ext j hj
      simp [Width.trunc, Width.bits, Width.bytes]
    · rw [hk]
      ext j hj
      by_cases h8 : j < 8
      · have hin : 8 + j < 32 := by omega
        simp only [Width.trunc, Width.bits, Width.bytes, BitVec.getElem_setWidth,
          BitVec.getLsbD_setWidth, BitVec.getLsbD_ushiftRight, BitVec.getLsbD_or,
          BitVec.getLsbD_and, hmask j h8, BitVec.getLsbD_shiftLeft]
        simp [h8, hin, hj]
      · simp [Width.trunc, Width.bits, Width.bytes, h8]
  | w =>
    simp only [CpuState.reg, CpuState.setReg, Function.update_self]
    ext j hj
    simp [Width.trunc, Width.bits, Width.bytes]
  | l =>
    simp only [CpuState.reg, CpuState.setReg, Function.update_self]
    simp [Width.trunc, Width.bits, Width.bytes]

section Store

variable {P : Type} [Bus P] {d : Width} {k : Slot} {v : Word} {m m' : Machine P}

/-- What `swaddr_read` reads, as a function of the registers and the bus. -/
def readMem (c : CpuState) (addr : Word) (len sreg : ℕ) (p : P) : Option (Word × P) :=
  if (len = 1 ∨ len = 2 ∨ len = 4) ∧ sreg < 4 then
    (Bus.lnaddrRead c.cr0 c.cr3 (c.linear addr (Fin.ofNat 6 sreg)) len p).map fun r =>
      (r.1.setWidth 32, r.2)
  else none

/-- The bus after `swaddr_write`, as a function of the registers and the bus. -/
def writeMem (c : CpuState) (addr : Word) (len : ℕ) (data : Word) (sreg : ℕ) (p : P) : Option P :=
  if (len = 1 ∨ len = 2 ∨ len = 4) ∧ sreg < 4 then
    (Bus.lnaddrWrite c.cr0 c.cr3 (c.linear addr (Fin.ofNat 6 sreg)) len data p).map (·.2)
  else none

theorem swaddrRead_run (addr : Word) (len sreg : ℕ) (m : Machine P) :
    swaddrRead addr len sreg m =
      match readMem m.cpu addr len sreg m.bus with
      | some (v, p) => .ok v (m.setBus p)
      | none => .abort (if len = 1 ∨ len = 2 ∨ len = 4 then .assertion else .length) := by
  unfold swaddrRead segTranslate readMem
  by_cases hl : len = 1 ∨ len = 2 ∨ len = 4
  · by_cases hs : sreg < 4
    · rw [if_pos hl, if_pos hs, if_pos ⟨hl, hs⟩, read_bind_run]
      unfold lnaddrRead
      rw [if_pos hl, if_pos hl, read_bind_run, bind_run, bus, access]
      cases Bus.lnaddrRead m.cpu.cr0 m.cpu.cr3 (m.cpu.linear addr (Fin.ofNat 6 sreg)) len m.bus <;> rfl
    · rw [if_pos hl, if_neg hs, if_neg fun h => hs h.2, if_pos hl]
      rfl
  · rw [if_neg hl, if_neg fun h => hl h.1, if_neg hl]
    rfl

theorem swaddrWrite_run (addr : Word) (len : ℕ) (data : Word) (sreg : ℕ) (m : Machine P) :
    swaddrWrite addr len data sreg m =
      match writeMem m.cpu addr len data sreg m.bus with
      | some p => .ok () (m.setBus p)
      | none => .abort (if len = 1 ∨ len = 2 ∨ len = 4 then .assertion else .length) := by
  unfold swaddrWrite segTranslate writeMem
  by_cases hl : len = 1 ∨ len = 2 ∨ len = 4
  · by_cases hs : sreg < 4
    · rw [if_pos hl, if_pos hs, if_pos ⟨hl, hs⟩, if_pos hl, read_bind_run]
      unfold lnaddrWrite
      rw [read_bind_run, bus, access]
      cases Bus.lnaddrWrite m.cpu.cr0 m.cpu.cr3 (m.cpu.linear addr (Fin.ofNat 6 sreg)) len data
        m.bus <;> rfl
    · rw [if_pos hl, if_neg hs, if_neg fun h => hs h.2, if_pos hl]
      rfl
  · rw [if_neg hl, if_neg fun h => hl h.1, if_neg hl]
    rfl

theorem swaddrRead_ok {addr v : Word} {len sreg : ℕ} (h : swaddrRead addr len sreg m = .ok v m') :
    m' = m.setBus m'.bus ∧ readMem m.cpu addr len sreg m.bus = some (v, m'.bus) := by
  rw [swaddrRead_run] at h
  cases hr : readMem m.cpu addr len sreg m.bus with
  | none =>
    rw [hr] at h
    exact nomatch h
  | some r =>
    rw [hr] at h
    injection h with hv h
    subst hv h
    exact ⟨rfl, rfl⟩

theorem swaddrWrite_ok {addr data : Word} {len sreg : ℕ}
    (h : swaddrWrite addr len data sreg m = .ok () m') :
    m' = m.setBus m'.bus ∧ writeMem m.cpu addr len data sreg m.bus = some m'.bus := by
  rw [swaddrWrite_run] at h
  cases hw : writeMem m.cpu addr len data sreg m.bus with
  | none =>
    rw [hw] at h
    exact nomatch h
  | some p =>
    rw [hw] at h
    injection h with _ h
    subst h
    exact ⟨rfl, rfl⟩

/-- What was written to an operand of `m` is in `m'`: in its register, or in
memory at its address. -/
inductive Stored (d : Width) (k : Slot) (v : Word) (m m' : Machine P) : Prop where
  | reg (i : Fin 8) (htype : m.type k = .reg) (hloc : m.loc k = regNo i) (hreg : m'.reg d i = v)
  | mem (htype : m.type k = .mem)
      (hwrite : writeMem m.cpu (m.loc k) (m.operand k).size v (m.operand k).sreg m.bus = some m'.bus)

/-- What follows changes neither registers nor memory. -/
theorem Stored.after {m'' : Machine P} (h : Stored d k v m m') (hgpr : m''.cpu.gpr = m'.cpu.gpr)
    (hbus : m''.bus = m'.bus) : Stored d k v m m'' := by
  cases h with
  | reg i htype hloc hreg =>
    refine .reg i htype hloc ?_
    rw [← hreg]
    cases d <;> simp only [Machine.reg, CpuState.reg, hgpr]
  | mem htype hwrite => exact .mem htype (hbus ▸ hwrite)

theorem regNo_bits02 {loc : Word} (h : loc.toNat < 8) : regNo (bits02 loc) = loc := by
  apply BitVec.eq_of_toNat_eq
  rw [regNo, bits02, Fin.val_ofNat, Nat.mod_eq_of_lt h, BitVec.toNat_ofNat]
  omega

/-- `write_operand` changes one register, or memory. -/
theorem writeOperand_ok (h : writeOperand d k v m = .ok () m') :
    (∃ i, m.type k = .reg ∧ m.loc k = regNo i ∧ m' = m.setReg d i v) ∨
      m.type k = .mem ∧ swaddrWrite (m.loc k) (m.operand k).size (d.trunc v) (m.operand k).sreg m =
        .ok () m' := by
  unfold writeOperand at h
  rw [read_bind_run, read_bind_run] at h
  by_cases hr : m.type k = .reg
  · rw [if_pos hr] at h
    unfold checkRegIndex at h
    by_cases hi : (m.loc k).toNat < 8
    · rw [if_pos hi, pure_bind_run] at h
      injection h with _ h
      exact .inl ⟨bits02 (m.loc k), hr, (regNo_bits02 hi).symm, h.symm⟩
    · rw [if_neg hi] at h
      exact nomatch h
  · rw [if_neg hr] at h
    by_cases hm : m.type k = .mem
    · rw [if_pos hm] at h
      exact .inr ⟨hm, h⟩
    · rw [if_neg hm] at h
      exact nomatch h

/-- The value is stored, and the flags and the operand records are as before. -/
theorem writeOperand_stored (h : writeOperand d k v m = .ok () m') :
    Stored d k (d.trunc v) m m' ∧ m'.cpu.eflags = m.cpu.eflags ∧ m'.ops = m.ops := by
  rcases writeOperand_ok h with ⟨i, htype, hloc, rfl⟩ | ⟨htype, hwrite⟩
  · refine ⟨.reg i htype hloc (m.cpu.reg_setReg d i v), ?_, rfl⟩
    cases d <;> rfl
  · obtain ⟨heq, hmem⟩ := swaddrWrite_ok hwrite
    refine ⟨.mem htype hmem, ?_, ?_⟩ <;> rw [heq] <;> rfl

omit [Bus P] in
/-- After its decoder an instruction executes. -/
theorem exec_of_idex {decode : Helper P} {execute : Cmd (Machine P) Unit} {eip len n : Word} {m₁ : Machine P}
    (hdec : decode (eip + 1) m = .ok len m₁) (hrun : idex decode execute eip m = .ok n m') :
    execute m₁ = .ok () m' := by
  unfold idex at hrun
  rw [bind_ok hdec] at hrun
  obtain ⟨_, m₂, hexec, hm⟩ := bind_eq_ok hrun
  injection hm with _ hm
  exact hm ▸ hexec

end Store

end Nemu
