/-
# Operand decoding

`modrm.c` and `decode-template.h`: a decoder reads instruction bytes, fills
fields of the operand records and returns how many bytes it read. It fills no
more fields than the source does, so the others keep what an earlier
instruction left in them.

Key definitions: `Helper`, `loadAddr`, `decodeRmInternal`, the decoders
`decodeI`, …, `writeOperand`, `idex`.
-/
import Nemu.Cpu.Machine

namespace Nemu

open Bytes Cmd

/-- `make_helper`: from the address of the opcode to the length. -/
abbrev Helper (P : Type) : Type := Word → Cmd (Machine P) Word

/-! ### ModR/M and SIB -/

/-- `R_M`, and `base` of an SIB byte. -/
def bits02 (v : Word) : Fin 8 := Fin.ofNat 8 v.toNat

/-- `reg` and `opcode`, and `index` of an SIB byte. -/
def bits35 (v : Word) : Fin 8 := Fin.ofNat 8 (v.toNat / 8)

/-- `mod`, and `ss` of an SIB byte. -/
def bits67 (v : Word) : ℕ := v.toNat / 64 % 4

/-- A register number as the value of a field. -/
def regNo (i : Fin 8) : Word := BitVec.ofNat 32 i.val

/-- How an address is built: `base_reg` and `index_reg` (if any), `scale`,
`disp_offset` and `disp_size`. -/
structure AddrForm where
  base : Option (Fin 8)
  index : Option (Fin 8)
  scale : ℕ
  dispOffset : ℕ
  dispSize : ℕ
  deriving DecidableEq

/-- The form that a ModR/M byte and its SIB byte (read if `R_M` is `R_ESP`) name. -/
def addrForm (m sib : Word) : AddrForm :=
  let base := if bits02 m = rESP then bits02 sib else bits02 m
  { base := if bits67 m = 0 ∧ base = rEBP then none else some base
    index := if bits02 m = rESP ∧ bits35 sib ≠ rESP then some (bits35 sib) else none
    scale := if bits02 m = rESP then bits67 sib else 0
    dispOffset := if bits02 m = rESP then 2 else 1
    dispSize := if bits67 m = 0 then (if base = rEBP then 4 else 0)
      else if bits67 m = 1 then 1 else 4 }

/-- The value of a register, if there is one. -/
def CpuState.regOr0 (c : CpuState) (i : Option (Fin 8)) : Word :=
  match i with
  | some i => c.gpr i
  | none => 0

section Decode

variable {P : Type} [Bus P]

/-- `load_addr`; also returns `rm->addr`. -/
def loadAddr (eip m : Word) (rm : Slot) : Cmd (Machine P) (Word × Word) := do
  if bits67 m = 3 then abort
  else
    let sib ← (if bits02 m = rESP then instrFetch (eip + 1) 1 else pure 0)
    let form := addrForm m sib
    let disp ← (if form.dispSize = 0 then pure 0 else
      instrFetch (eip + BitVec.ofNat 32 form.dispOffset) form.dispSize)
    let disp := if form.dispSize = 1 then Width.sext .b disp else disp
    let base ← read fun m : Machine P => m.cpu.regOr0 form.base
    let index ← read fun m : Machine P => m.cpu.regOr0 form.index
    let addr := disp + base + index <<< form.scale
    write (·.setType rm .mem)
    write (·.setLoc rm addr)
    return (BitVec.ofNat 32 (form.dispOffset + form.dispSize), addr)

/-- `read_ModR_M`, for `rm->size` given as a width; also returns `reg->reg`. -/
def readModRM (d : Width) (eip : Word) (rm reg : Slot) : Cmd (Machine P) (Word × Fin 8) := do
  let m ← instrFetch eip 1
  write (·.setType reg .reg)
  write (·.setLoc reg (regNo (bits35 m)))
  let sreg := if bits35 m = 5 ∨ bits35 m = 4 then 2 else 3
  write (·.setOpSreg rm sreg)
  if bits67 m = 3 then
    write (·.setType rm .reg)
    write (·.setLoc rm (regNo (bits02 m)))
    let v ← read (·.reg d (bits02 m))
    write (·.setVal rm v)
    return (1, bits35 m)
  else
    let r ← loadAddr eip m rm
    let v ← swaddrRead r.2 d.bytes sreg
    write (·.setVal rm v)
    return (r.1, bits35 m)

def decodeRmInternal (d : Width) (eip : Word) (rm reg : Slot) : Cmd (Machine P) Word := do
  write (·.setSize rm d.bytes)
  let r ← readModRM d eip rm reg
  let v ← read (·.reg d r.2)
  write (·.setVal reg v)
  return r.1

/-! ### The decoders -/

def decodeN : Helper P := fun _ => do
  write (·.setType .src .imm)
  return 0

def decodeI (d : Width) : Helper P := fun eip => do
  write (·.setType .src .imm)
  let v ← instrFetch eip d.bytes
  write (·.setLoc .src v)
  write (·.setVal .src v)
  return d.len

def decodeSi (d : Width) : Helper P := fun eip => do
  write (·.setType .src .imm)
  let v ← instrFetch eip d.bytes
  write (·.setLoc .src (d.sext v))
  write (·.setVal .src (d.sext v))
  return d.len

/-- A register as an operand. -/
def setRegOperand (d : Width) (k : Slot) (i : Fin 8) : Cmd (Machine P) Unit := do
  write (·.setType k .reg)
  write (·.setLoc k (regNo i))
  let v ← read (·.reg d i)
  write (·.setVal k v)

def decodeA (d : Width) (k : Slot) : Cmd (Machine P) Unit := setRegOperand d k rEAX

def decodeRInternal (d : Width) (k : Slot) : Cmd (Machine P) Unit := do
  let opcode ← read (·.ops.opcode)
  setRegOperand d k (bits02 opcode)

def decodeR2rm (d : Width) : Helper P := fun eip => decodeRmInternal d eip .dest .src

def decodeRm2r (d : Width) : Helper P := fun eip => decodeRmInternal d eip .src .dest

def decodeI2a (d : Width) : Helper P := fun eip => do
  decodeA d .dest
  decodeI d eip

def decodeIRm2r (d : Width) : Helper P := fun eip => do
  let len ← decodeRmInternal d eip .src2 .dest
  let len' ← decodeI d (eip + len)
  return len + len'

def decodeI2rm (d : Width) : Helper P := fun eip => do
  let len ← decodeRmInternal d eip .dest .src2
  let len' ← decodeI d (eip + len)
  return len + len'

def decodeI2r (d : Width) : Helper P := fun eip => do
  decodeRInternal d .dest
  decodeI d eip

def decodeRm (d : Width) : Helper P := fun eip => decodeRmInternal d eip .src .src2

def decodeR (d : Width) : Helper P := fun _ => do
  decodeRInternal d .src
  return 0

def decodeSi2rm (d : Width) : Helper P := fun eip => do
  let len ← decodeRmInternal d eip .dest .src2
  let len' ← decodeSi .b (eip + len)
  return len + len'

def decodeSiRm2r (d : Width) : Helper P := fun eip => do
  let len ← decodeRmInternal d eip .src2 .dest
  let len' ← decodeSi .b (eip + len)
  return len + len'

def decodeRm1 (d : Width) : Helper P := fun eip => do
  let len ← decodeR2rm d eip
  write (·.setType .src .imm)
  write (·.setLoc .src 1)
  write (·.setVal .src 1)
  return len

def decodeRmCl (d : Width) : Helper P := fun eip => do
  let len ← decodeR2rm d eip
  setRegOperand .b .src rECX
  return len

def decodeRmImm (d : Width) : Helper P := fun eip => do
  let len ← decodeR2rm d eip
  let len' ← decodeI .b (eip + len)
  return len + len'

/-! ### Execution -/

/-- `check_reg_index`. -/
def checkRegIndex (i : Word) : Cmd (Machine P) (Fin 8) :=
  if i.toNat < 8 then pure (bits02 i) else abort

/-- `write_operand`. -/
def writeOperand (d : Width) (k : Slot) (v : Word) : Cmd (Machine P) Unit := do
  let type ← read (·.type k)
  let loc ← read (·.loc k)
  if type = .reg then
    let i ← checkRegIndex loc
    write (·.setReg d i v)
  else if type = .mem then
    let size ← read fun m : Machine P => (m.operand k).size
    let sreg ← read fun m : Machine P => (m.operand k).sreg
    swaddrWrite loc size (d.trunc v) sreg
  else abort

/-- `idex`. -/
def idex (decode : Helper P) (execute : Cmd (Machine P) Unit) : Helper P := fun eip => do
  let len ← decode (eip + 1)
  execute
  return len + 1

/-- `make_helper_v`. -/
def helperV (h : Width → Helper P) : Helper P := fun eip => do
  let is16 ← read (·.ops.isOperandSize16)
  if is16 then h .w eip else h .l eip

/-- `DATA_BYTE` of the instructions for `w` and `l`. -/
def Machine.opWidth {P : Type} (m : Machine P) : Width := if m.ops.isOperandSize16 then .w else .l

omit [Bus P] in
theorem helperV_run (h : Width → Helper P) (eip : Word) (m : Machine P) : helperV h eip m = h m.opWidth eip m := by
  unfold helperV Machine.opWidth
  rw [read_bind_run]
  split <;> rfl

end Decode

end Nemu
