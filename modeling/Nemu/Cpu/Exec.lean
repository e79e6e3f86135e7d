/-
# The opcode tables and the main loop

`exec.c`, the prefixes that execute another instruction (`prefix.c`, `rep.c`),
`raise_intr` and `cpu_exec`. The recursion through the prefixes and the loops
of `rep` and `repnz` are bounded by a number of steps. No watchpoint is set here, and
the trace that `cpu_exec` logs after each instruction is left out.

Key definitions: `raiseIntr`, `opcodeTable`, `opcodeTable2`, `exec`, `execStep`,
`checkIntr`.
-/
import Nemu.Cpu.Instr
import Nemu.Lib.Decimal

namespace Nemu

open Bytes Cmd Instr

/-! ### Interrupts -/

section Intr

variable {P : Type} [Bus P]

/-- `raise_intr`: the interrupt frame is pushed, `cs:eip` is loaded from the gate,
and control goes back to the main loop. -/
def raiseIntr (no : Byte) : Cmd (Machine P) Word := do
  let esp ← read (·.reg .l rESP)
  write (·.setReg .l rESP (esp - 4))
  let eflags ← read (·.cpu.eflags)
  swaddrWrite (esp - 4) 4 eflags 2
  write (·.setReg .l rESP (esp - 4 - 4))
  let cs ← read fun m : Machine P => (m.cpu.sreg 1).selector
  swaddrWrite (esp - 4 - 4) 4 (cs.setWidth 32) 2
  write (·.setReg .l rESP (esp - 4 - 4 - 4))
  let eip ← read (·.eip)
  swaddrWrite (esp - 4 - 4 - 4) 4 eip 2
  let idt ← read fun m : Machine P => m.cpu.idtr.base
  let gate := idt + 8 * no.setWidth 32
  let selector ← lnaddrRead (gate + 2) 2
  loadSreg 1 (selector.setWidth 16)
  let base ← read fun m : Machine P => (m.cpu.sreg 1).cache.base
  let offset1 ← lnaddrRead gate 2
  let offset2 ← lnaddrRead (gate + 6) 2
  let offset1 := Width.trunc .w offset1
  let offset2 := Width.trunc .w offset2
  write (·.setEip (base + (offset2 <<< 16 ||| offset1)))
  jump

/-- `int_i`. -/
def intI : Helper P := fun eip => do
  let imm ← instrFetch (eip + 1) 1
  let cur ← read (·.eip)
  write (·.setEip (cur + 2))
  raiseIntr (imm.setWidth 8)

end Intr

/-! ### The opcode tables -/

section Tables

variable {P : Type} [Bus P]

/-- `make_instr_helper`, for the decoders of two operands. -/
def opR2rm (e : Width → Cmd (Machine P) Unit) (d : Width) : Helper P := idex (decodeR2rm d) (e d)
def opRm2r (e : Width → Cmd (Machine P) Unit) (d : Width) : Helper P := idex (decodeRm2r d) (e d)
def opI2rm (e : Width → Cmd (Machine P) Unit) (d : Width) : Helper P := idex (decodeI2rm d) (e d)
def opSi2rm (e : Width → Cmd (Machine P) Unit) (d : Width) : Helper P := idex (decodeSi2rm d) (e d)
def opI2a (e : Width → Cmd (Machine P) Unit) (d : Width) : Helper P := idex (decodeI2a d) (e d)
def opI2r (e : Width → Cmd (Machine P) Unit) (d : Width) : Helper P := idex (decodeI2r d) (e d)
def opRm (e : Width → Cmd (Machine P) Unit) (d : Width) : Helper P := idex (decodeRm d) (e d)
def opR (e : Width → Cmd (Machine P) Unit) (d : Width) : Helper P := idex (decodeR d) (e d)
def opI (e : Width → Cmd (Machine P) Unit) (d : Width) : Helper P := idex (decodeI d) (e d)
def opN (e : Width → Cmd (Machine P) Unit) (d : Width) : Helper P := idex decodeN (e d)
def opIRm2r (e : Width → Cmd (Machine P) Unit) (d : Width) : Helper P := idex (decodeIRm2r d) (e d)
def opSiRm2r (e : Width → Cmd (Machine P) Unit) (d : Width) : Helper P := idex (decodeSiRm2r d) (e d)
def opRm1 (e : Width → Cmd (Machine P) Unit) (d : Width) : Helper P := idex (decodeRm1 d) (e d)
def opRmCl (e : Width → Cmd (Machine P) Unit) (d : Width) : Helper P := idex (decodeRmCl d) (e d)
def opRmImm (e : Width → Cmd (Machine P) Unit) (d : Width) : Helper P := idex (decodeRmImm d) (e d)

/-- Entry `k` of a table. -/
def entry (table : List (Helper P)) (k : ℕ) : Helper P := table.getD k inv

/-- `make_group`. -/
def group (table : List (Helper P)) : Helper P := fun eip => do
  let m ← instrFetch (eip + 1) 1
  entry table (bits35 m).val eip

def group1B : List (Helper P) :=
  [opI2rm doAdd .b, opI2rm doOr .b, opI2rm doAdc .b, opI2rm doSbb .b,
   opI2rm doAnd .b, opI2rm doSub .b, opI2rm doXor .b, opI2rm doCmp .b]

def group1V : List (Helper P) :=
  [helperV (opI2rm doAdd), helperV (opI2rm doOr), helperV (opI2rm doAdc), helperV (opI2rm doSbb),
   helperV (opI2rm doAnd), helperV (opI2rm doSub), helperV (opI2rm doXor), helperV (opI2rm doCmp)]

def group1SxV : List (Helper P) :=
  [helperV (opSi2rm doAdd), helperV (opSi2rm doOr), helperV (opSi2rm doAdc), helperV (opSi2rm doSbb),
   helperV (opSi2rm doAnd), helperV (opSi2rm doSub), helperV (opSi2rm doXor), helperV (opSi2rm doCmp)]

def group2IB : List (Helper P) :=
  [inv, inv, inv, inv, opRmImm doShl .b, opRmImm doShr .b, inv, opRmImm doSar .b]

def group2IV : List (Helper P) :=
  [inv, inv, inv, inv, helperV (opRmImm doShl), helperV (opRmImm doShr), inv, helperV (opRmImm doSar)]

def group21B : List (Helper P) :=
  [inv, inv, inv, inv, opRm1 doShl .b, opRm1 doShr .b, inv, opRm1 doSar .b]

def group21V : List (Helper P) :=
  [inv, inv, inv, inv, helperV (opRm1 doShl), helperV (opRm1 doShr), inv, helperV (opRm1 doSar)]

def group2ClB : List (Helper P) :=
  [inv, inv, inv, inv, opRmCl doShl .b, opRmCl doShr .b, inv, opRmCl doSar .b]

def group2ClV : List (Helper P) :=
  [inv, inv, inv, inv, helperV (opRmCl doShl), helperV (opRmCl doShr), inv, helperV (opRmCl doSar)]

def group3B : List (Helper P) :=
  [opI2rm doTest .b, inv, opRm doNot .b, opRm doNeg .b,
   opRm doMul .b, imulRm2a .b, opRm doDiv .b, opRm doIdiv .b]

def group3V : List (Helper P) :=
  [helperV (opI2rm doTest), inv, helperV (opRm doNot), helperV (opRm doNeg),
   helperV (opRm doMul), helperV imulRm2a, helperV (opRm doDiv), helperV (opRm doIdiv)]

def group4 : List (Helper P) :=
  [opRm doInc .b, opRm doDec .b, inv, inv, inv, inv, inv, inv]

def group5 : List (Helper P) :=
  [helperV (opRm doInc), helperV (opRm doDec), helperV callRm, helperV callRm,
   helperV (opRm doJmp), helperV (opRm doJmp), helperV (opRm doPush), inv]

def group6 : List (Helper P) := [inv, inv, inv, inv, inv, inv, inv, inv]

def group7 : List (Helper P) := [inv, inv, helperV lgdt, helperV lidt, inv, inv, inv, inv]

/-- `_2byte_opcode_table`. -/
def opcodeTable2 : List (Helper P) :=
  [
    /- 0x00 -/ group group6, group group7, inv, inv, inv, inv, inv, inv,
    /- 0x08 -/ inv, inv, inv, inv, inv, inv, inv, inv,
    /- 0x10 -/ inv, inv, inv, inv, inv, inv, inv, inv,
    /- 0x18 -/ inv, inv, inv, inv, inv, inv, inv, inv,
    /- 0x20 -/ movCr2r, inv, movR2cr, inv, inv, inv, inv, inv,
    /- 0x28 -/ inv, inv, inv, inv, inv, inv, inv, inv,
    /- 0x30 -/ inv, inv, inv, inv, inv, inv, inv, inv,
    /- 0x38 -/ inv, inv, inv, inv, inv, inv, inv, inv,
    /- 0x40 -/ inv, inv, inv, inv, helperV cmove, inv, inv, inv,
    /- 0x48 -/ inv, inv, inv, inv, inv, helperV cmovle, helperV cmovle, inv,
    /- 0x50 -/ inv, inv, inv, inv, inv, inv, inv, inv,
    /- 0x58 -/ inv, inv, inv, inv, inv, inv, inv, inv,
    /- 0x60 -/ inv, inv, inv, inv, inv, inv, inv, inv,
    /- 0x68 -/ inv, inv, inv, inv, inv, inv, inv, inv,
    /- 0x70 -/ inv, inv, inv, inv, inv, inv, inv, inv,
    /- 0x78 -/ inv, inv, inv, inv, inv, inv, inv, inv,
    /- 0x80 -/ helperV (jcc · .o), helperV (jcc · .no), helperV (jcc · .b), helperV (jcc · .ae),
               helperV (jcc · .e), helperV (jcc · .ne), helperV (jcc · .be), helperV (jcc · .a),
    /- 0x88 -/ helperV (jcc · .s), helperV (jcc · .ns), helperV (jcc · .p), helperV (jcc · .np),
               helperV (jcc · .l), helperV (jcc · .ge), helperV (jcc · .le), helperV (jcc · .g),
    /- 0x90 -/ setcc .o, setcc .no, setcc .b, setcc .ae, setcc .e, setcc .ne, setcc .be, setcc .a,
    /- 0x98 -/ setcc .s, setcc .ns, setcc .p, setcc .np, setcc .l, setcc .ge, setcc .le, setcc .g,
    /- 0xa0 -/ inv, inv, inv, helperV btR2rm, inv, inv, inv, inv,
    /- 0xa8 -/ inv, inv, inv, inv, helperV shrdi, inv, inv, helperV imulRm2r,
    /- 0xb0 -/ inv, inv, inv, inv, inv, inv, helperV movzb, movzwL,
    /- 0xb8 -/ inv, inv, helperV btI2rm, inv, inv, inv, helperV movsb, movswL,
    /- 0xc0 -/ inv, inv, inv, inv, inv, inv, inv, inv,
    /- 0xc8 -/ inv, inv, inv, inv, inv, inv, inv, inv,
    /- 0xd0 -/ inv, inv, inv, inv, inv, inv, inv, inv,
    /- 0xd8 -/ inv, inv, inv, inv, inv, inv, inv, inv,
    /- 0xe0 -/ inv, inv, inv, inv, inv, inv, inv, inv,
    /- 0xe8 -/ inv, inv, inv, inv, inv, inv, inv, inv,
    /- 0xf0 -/ inv, inv, inv, inv, inv, inv, inv, inv,
    /- 0xf8 -/ inv, inv, inv, inv, inv, inv, inv, inv
  ]

/-- `_2byte_esc`. -/
def twoByteEsc : Helper P := fun eip => do
  let opcode ← instrFetch (eip + 1) 1
  write (·.setOpcode (opcode ||| 0x100))
  let len ← entry opcodeTable2 opcode.toNat (eip + 1)
  return len + 1

/-! ### Prefixes -/

/-- `operand_size`, for `exec`. -/
def operandSize (exec : Helper P) : Helper P := fun eip => do
  write (·.setOperandSize16 true)
  let len ← exec (eip + 1)
  write (·.setOperandSize16 false)
  return len + 1

/-- `cmps` and `scas`, at which a repetition looks at `ZF`. -/
def compares (opcode : Word) : Bool :=
  opcode == 0xa6 || opcode == 0xa7 || opcode == 0xae || opcode == 0xaf

/-- `count ++`, on an `int`. -/
def countUp (count : ℕ) : Cmd (Machine P) ℕ := if count + 1 < 2 ^ 31 then pure (count + 1) else abort

omit [Bus P] in
theorem countUp_run (count : ℕ) (m : Machine P) : countUp count m =
    if count + 1 < 2 ^ 31 then .ok (count + 1) m else .abort .assertion := by
  unfold countUp
  split <;> rfl

/-- The loop of `rep` and `repnz`, from this count on, which it returns; `z` is the value
of `ZF` at which it stops. -/
def repLoop (exec : Helper P) (z : Bool) (eip : Word) : ℕ → ℕ → Cmd (Machine P) ℕ
  | 0, _ => outOfFuel
  | fuel + 1, count => do
    let ecx ← read (·.reg .l rECX)
    if ecx = 0 then pure count
    else
      let _ ← exec (eip + 1)
      let count ← countUp count
      let ecx ← read (·.reg .l rECX)
      write (·.setReg .l rECX (ecx - 1))
      let opcode ← read (·.ops.opcode)
      let zf ← read (·.flag .ZF)
      if compares opcode = true ∧ zf = z then pure count else repLoop exec z eip fuel count

/-- How long the text is with this name in front and the count behind it, which is
written as `[cnt = %d]`. -/
def repText (name text count : ℕ) : ℕ := name + 1 + text + (8 + (Decimal.digits count).length)

/-- The `DEBUG` block of `rep` and `repnz`. The text with the name is put together in
`temp`; it and `assembly` have 80 bytes. -/
def printRep (name count : ℕ) : Cmd (Machine P) Unit := do
  let text ← read fun m : Machine P => m.assembly.length.val
  if name + 1 + text < 80 ∧ repText name text count < 80 then
    write (·.setText (Fin.ofNat 80 (repText name text count)))
  else abort

omit [Bus P] in
theorem printRep_run (name count : ℕ) (m : Machine P) : printRep name count m =
    if repText name m.assembly.length count < 80 then
      .ok () (m.setText (Fin.ofNat 80 (repText name m.assembly.length count)))
    else .abort .assertion := by
  unfold printRep
  rw [read_bind_run]
  by_cases h : repText name m.assembly.length count < 80
  · rw [if_pos h, if_pos ⟨Nat.lt_of_le_of_lt (Nat.le_add_right _ _) h, h⟩, write_run]
  · rw [if_neg h, if_neg fun h' => h h'.2, abort_run]

omit [Bus P] in
theorem printRep_ok {name count : ℕ} {m m' : Machine P} (h : printRep name count m = .ok () m') :
    ∃ n, m' = m.setText n := by
  rw [printRep_run] at h
  split at h
  · exact ⟨_, (Outcome.ok.inj h).2.symm⟩
  · exact nomatch h

def rep (exec : Helper P) (fuel : ℕ) : Helper P := fun eip => do
  let next ← instrFetch (eip + 1) 1
  if next = 0xc3 then
    let _ ← exec (eip + 1)
    printRep 3 0
    return 1
  else
    let count ← repLoop exec false eip fuel 0
    printRep 3 count
    return 2

def repnz (exec : Helper P) (fuel : ℕ) : Helper P := fun eip => do
  let count ← repLoop exec true eip fuel 0
  printRep 5 count
  return 2

/-- `opcode_table`, for `exec` as the prefixes call it. -/
def opcodeTable (exec : Helper P) (fuel : ℕ) : List (Helper P) :=
  [
    /- 0x00 -/ opR2rm doAdd .b, helperV (opR2rm doAdd), opRm2r doAdd .b, helperV (opRm2r doAdd),
               opI2a doAdd .b, helperV (opI2a doAdd), inv, inv,
    /- 0x08 -/ opR2rm doOr .b, helperV (opR2rm doOr), opRm2r doOr .b, helperV (opRm2r doOr),
               opI2a doOr .b, helperV (opI2a doOr), inv, twoByteEsc,
    /- 0x10 -/ opR2rm doAdc .b, helperV (opR2rm doAdc), opRm2r doAdc .b, helperV (opRm2r doAdc),
               opI2a doAdc .b, helperV (opI2a doAdc), inv, inv,
    /- 0x18 -/ opR2rm doSbb .b, helperV (opR2rm doSbb), opRm2r doSbb .b, helperV (opRm2r doSbb),
               opI2a doSbb .b, helperV (opI2a doSbb), inv, inv,
    /- 0x20 -/ opR2rm doAnd .b, helperV (opR2rm doAnd), opRm2r doAnd .b, helperV (opRm2r doAnd),
               opI2a doAnd .b, helperV (opI2a doAnd), inv, inv,
    /- 0x28 -/ opR2rm doSub .b, helperV (opR2rm doSub), opRm2r doSub .b, helperV (opRm2r doSub),
               opI2a doSub .b, helperV (opI2a doSub), inv, inv,
    /- 0x30 -/ opR2rm doXor .b, helperV (opR2rm doXor), opRm2r doXor .b, helperV (opRm2r doXor),
               opI2a doXor .b, helperV (opI2a doXor), inv, inv,
    /- 0x38 -/ opR2rm doCmp .b, helperV (opR2rm doCmp), opRm2r doCmp .b, helperV (opRm2r doCmp),
               opI2a doCmp .b, helperV (opI2a doCmp), inv, inv,
    /- 0x40 -/ helperV (opR doInc), helperV (opR doInc), helperV (opR doInc), helperV (opR doInc),
               helperV (opR doInc), helperV (opR doInc), helperV (opR doInc), helperV (opR doInc),
    /- 0x48 -/ helperV (opR doDec), helperV (opR doDec), helperV (opR doDec), helperV (opR doDec),
               helperV (opR doDec), helperV (opR doDec), helperV (opR doDec), helperV (opR doDec),
    /- 0x50 -/ helperV (opR doPush), helperV (opR doPush), helperV (opR doPush), helperV (opR doPush),
               helperV (opR doPush), helperV (opR doPush), helperV (opR doPush), helperV (opR doPush),
    /- 0x58 -/ helperV (opR doPop), helperV (opR doPop), helperV (opR doPop), helperV (opR doPop),
               helperV (opR doPop), helperV (opR doPop), helperV (opR doPop), helperV (opR doPop),
    /- 0x60 -/ helperV pusha, helperV popa, inv, inv, inv, inv, operandSize exec, inv,
    /- 0x68 -/ helperV (opI doPush), helperV (opIRm2r doImul), opI doPush .b, helperV (opSiRm2r doImul),
               inv, inv, inv, inv,
    /- 0x70 -/ jcc .b .o, jcc .b .no, jcc .b .b, jcc .b .ae,
               jcc .b .e, jcc .b .ne, jcc .b .be, jcc .b .a,
    /- 0x78 -/ jcc .b .s, jcc .b .ns, jcc .b .p, jcc .b .np,
               jcc .b .l, jcc .b .ge, jcc .b .le, jcc .b .g,
    /- 0x80 -/ group group1B, group group1V, inv, group group1SxV,
               opR2rm doTest .b, helperV (opR2rm doTest), opR2rm doXchg .b, helperV (opR2rm doXchg),
    /- 0x88 -/ opR2rm doMov .b, helperV (opR2rm doMov), opRm2r doMov .b, helperV (opRm2r doMov),
               inv, lea, movRm2s, helperV (opRm doPop),
    /- 0x90 -/ nop, helperV xchgA2r, helperV xchgA2r, helperV xchgA2r,
               helperV xchgA2r, helperV xchgA2r, helperV xchgA2r, helperV xchgA2r,
    /- 0x98 -/ helperV cwtl, helperV cltd, inv, inv, inv, inv, inv, inv,
    /- 0xa0 -/ movMoffs2a .b, helperV movMoffs2a, movA2moffs .b, helperV movA2moffs,
               opN doMovs .b, helperV (opN doMovs), inv, inv,
    /- 0xa8 -/ opI2a doTest .b, helperV (opI2a doTest), opN doStos .b, helperV (opN doStos),
               opN doLods .b, helperV (opN doLods), opN doScas .b, helperV (opN doScas),
    /- 0xb0 -/ opI2r doMov .b, opI2r doMov .b, opI2r doMov .b, opI2r doMov .b,
               opI2r doMov .b, opI2r doMov .b, opI2r doMov .b, opI2r doMov .b,
    /- 0xb8 -/ helperV (opI2r doMov), helperV (opI2r doMov), helperV (opI2r doMov), helperV (opI2r doMov),
               helperV (opI2r doMov), helperV (opI2r doMov), helperV (opI2r doMov), helperV (opI2r doMov),
    /- 0xc0 -/ group group2IB, group group2IV, helperV retI, helperV retO,
               inv, inv, opI2rm doMov .b, helperV (opI2rm doMov),
    /- 0xc8 -/ inv, leave, inv, helperV retO, int3, intI, inv, iret,
    /- 0xd0 -/ group group21B, group group21V, group group2ClB, group group2ClV,
               inv, inv, nemuTrap, inv,
    /- 0xd8 -/ inv, inv, inv, inv, inv, inv, inv, inv,
    /- 0xe0 -/ inv, inv, inv, inv, inI .b, helperV inI, outI .b, helperV outI,
    /- 0xe8 -/ helperV callI, helperV (opI doJmp), helperV jmpL, opI doJmp .b,
               inD .b, helperV inD, outD .b, helperV outD,
    /- 0xf0 -/ inv, inv, repnz exec fuel, rep exec fuel, hlt, inv, group group3B, group group3V,
    /- 0xf8 -/ inv, inv, cli, sti, cld, std, group group4, group group5
  ]

/-- `exec`, for at most so many prefixes and rounds of a repetition. -/
def exec : ℕ → Helper P
  | 0 => fun _ => outOfFuel
  | fuel + 1 => fun eip => do
    let opcode ← instrFetch eip 1
    write (·.setOpcode opcode)
    entry (opcodeTable (exec fuel) fuel) opcode.toNat eip

end Tables

/-! ### The main loop -/

section MainLoop

variable {P : Type} [Bus P]

/-- The body of the loop of `cpu_exec` up to the check of `INTR`. -/
def execStep (fuel : ℕ) : Cmd (Machine P) Unit := do
  let eip ← read (·.eip)
  let len ← exec fuel eip
  let eip ← read (·.eip)
  write (·.setEip (eip + len))

/-- The check of `INTR` at the end of the body. -/
def checkIntr : Cmd (Machine P) Unit := do
  let intr ← read fun m : Machine P => Bus.INTR m.bus
  let enabled ← read (·.flag .IF)
  if intr = true ∧ enabled = true then
    let no ← read fun m : Machine P => Bus.i8259QueryIntr m.bus
    bus Bus.i8259AckIntr
    let _ ← raiseIntr no
    pure ()
  else pure ()

end MainLoop

end Nemu
