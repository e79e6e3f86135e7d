/-
# The other instructions

`exec/data-mov`, `exec/con-tran`, `exec/string`, `exec/io`, `exec/misc`,
`exec/special` and `exec/system`, except those that execute another
instruction (the prefixes) and the delivery of interrupts.

`print_asm` and its check of the text's length are left out, and so are the
templates that no opcode table names (`cmps`, the `ja`–`js` and `seta`–`setne`
files, `jcc_ecxz`).

Key definitions: `Cc`, `jcc`, `setcc`, `cmov`, `callI`, `retO`, `doPush`,
`doPop`, `doScas`, `iret`.
-/
import Nemu.Cpu.Arith

namespace Nemu

open Bytes Cmd

namespace Instr

section Instr

variable {P : Type} [Bus P] (d : Width)

/-! ### Moving data -/

def doMov : Cmd (Machine P) Unit := do
  let src ← read (·.val .src)
  writeOperand d .dest src

def movA2moffs : Helper P := fun eip => do
  let addr ← instrFetch (eip + 1) 4
  let eax ← read (·.reg d rEAX)
  swaddrWrite addr d.bytes eax 3
  return 5

def movMoffs2a : Helper P := fun eip => do
  let addr ← instrFetch (eip + 1) 4
  let v ← swaddrRead addr d.bytes 3
  write (·.setReg d rEAX v)
  return 5

/-- `mov_cr2r`: both branches of the source move `cr0`. -/
def movCr2r : Helper P := fun eip => do
  let rNum ← instrFetch (eip + 1) 1
  let cr0 ← read (·.cpu.cr0)
  write (·.setReg .l (bits02 rNum) cr0)
  return 2

def movR2cr : Helper P := fun eip => do
  let rNum ← instrFetch (eip + 1) 1
  let v ← read (·.reg .l (bits02 rNum))
  (if bits35 rNum = 0 then write (·.setCr0 v)
  else do
    write (·.setCr3 v)
    write fun m => m.setBus (Bus.initTLB m.bus))
  return 2

/-- `mov_rm2s`: a segment register other than `es`, `cs`, `ss` and `ds` runs into
an assertion. -/
def movRm2s : Helper P := fun eip => do
  let len ← decodeR2rm .w (eip + 1)
  let i ← read (·.loc .src)
  let v ← read (·.val .dest)
  (if i.toNat < 4 then loadSreg (Fin.ofNat 6 i.toNat) (v.setWidth 16) else abort)
  return len + 1

/-- `movzb`, `movsb`, `movzw` and `movsw`, from width `s` through `f`. -/
def movExt (s : Width) (f : Word → Word) (d : Width) : Helper P := fun eip => do
  let len ← decodeRm2r s (eip + 1)
  let loc ← read (·.loc .dest)
  let i ← checkRegIndex loc
  let v ← read (·.val .src)
  write (·.setReg d i (f v))
  return len + 1

def movzb : Width → Helper P := movExt .b id
def movsb : Width → Helper P := movExt .b (Width.sext .b)
def movzwL : Helper P := movExt .w id .l
def movswL : Helper P := movExt .w (Width.sext .w) .l

def doXchg : Cmd (Machine P) Unit := do
  let src ← read (·.val .src)
  let dest ← read (·.val .dest)
  writeOperand d .src dest
  writeOperand d .dest (d.trunc src)

def xchgA2r : Helper P := fun eip => do
  let _ ← decodeR d eip
  setRegOperand d .dest rEAX
  doXchg d
  return 1

def lea : Helper P := fun eip => do
  let m ← instrFetch (eip + 1) 1
  let r ← loadAddr (eip + 1) m .src
  write (·.setReg .l (bits35 m) r.2)
  return 1 + r.1

def cltd : Helper P := fun _ => do
  let eax ← read (·.reg d rEAX)
  write (·.setReg d rEDX (if d.msb eax then -1 else 0))
  return 1

def cwtl : Helper P := fun _ => do
  let s := if d = .w then Width.b else Width.w
  let v ← read (·.reg s rEAX)
  write (·.setReg d rEAX (s.sext v))
  return 1

/-- `lgdt` and `lidt`, as the register is set. The 16-bit forms read 3 bytes of
the base, which `lnaddr_read` does not accept. -/
def loadDescReg (set : DescReg → Machine P → Machine P) : Helper P := fun eip => do
  let len ← decodeRm2r .l (eip + 1)
  let addr ← read (·.loc .src)
  let limit ← lnaddrRead addr 2
  let base ← lnaddrRead (addr + 2) (if d = .w then 3 else 4)
  write (set ⟨limit.setWidth 16, base⟩)
  return len + 1

def lgdt : Helper P := loadDescReg d fun r m => m.setGdtr r
def lidt : Helper P := loadDescReg d fun r m => m.setIdtr r

/-- `bt`, after the operands are decoded. -/
def doBt : Cmd (Machine P) Unit := do
  let src ← read (·.val .src)
  let type ← read (·.type .dest)
  if type = .reg then
    let dest ← read (·.val .dest)
    write (·.setFlag .CF (dest.getLsbD (src.toNat % d.bits)))
  else
    let loc ← read (·.loc .dest)
    let sreg ← read fun m : Machine P => (m.operand .dest).sreg
    let v ← swaddrRead (BitVec.ofNat 32 (src.toNat / d.bits) + loc) d.bytes sreg
    write (·.setFlag .CF (v.getLsbD (src.toNat % d.bits)))

def btR2rm : Helper P := fun eip => do
  let len ← decodeR2rm d (eip + 1)
  doBt d
  return 1 + len

/-- `bt_i2rm`: the bit string is decoded into `op_src`, then the immediate, and
what is tested is `op_dest`. -/
def btI2rm : Helper P := fun eip => do
  let len ← decodeRm d (eip + 1)
  let len' ← decodeI .b (eip + 1 + len)
  doBt d
  return 1 + (len + len')

/-! ### The stack -/

def doPush : Cmd (Machine P) Unit := do
  let v ← read (·.val .src)
  let v := if d = .b then Width.sext .b v else v
  write (·.setVal .src v)
  let esp ← read (·.reg .l rESP)
  write (·.setReg .l rESP (esp - 4))
  swaddrWrite (esp - 4) 4 v 2

def doPop : Cmd (Machine P) Unit := do
  let esp ← read (·.reg .l rESP)
  let sreg ← read fun m : Machine P => (m.operand .src).sreg
  let v ← swaddrRead esp d.bytes sreg
  writeOperand d .src v
  let esp ← read (·.reg .l rESP)
  swaddrWrite esp d.bytes 0 2
  write (·.setReg .l rESP (esp + d.len))

/-- One register goes to the stack. -/
def pushReg (v : Word) : Cmd (Machine P) Unit := do
  let esp ← read (·.reg .l rESP)
  write (·.setReg .l rESP (esp - d.len))
  swaddrWrite (esp - d.len) d.bytes v 2

def pusha : Helper P := fun _ => do
  let temp ← read (·.reg d rESP)
  let v ← read (·.reg d 0)
  pushReg d v
  let v ← read (·.reg d 1)
  pushReg d v
  let v ← read (·.reg d 2)
  pushReg d v
  let v ← read (·.reg d 3)
  pushReg d v
  pushReg d temp
  let v ← read (·.reg d 5)
  pushReg d v
  let v ← read (·.reg d 6)
  pushReg d v
  let v ← read (·.reg d 7)
  pushReg d v
  return 1

/-- One register comes from the stack. -/
def popReg (i : Fin 8) : Cmd (Machine P) Unit := do
  let esp ← read (·.reg .l rESP)
  let v ← swaddrRead esp d.bytes 2
  write (·.setReg d i v)
  let esp ← read (·.reg .l rESP)
  write (·.setReg .l rESP (esp + d.len))

def popa : Helper P := fun _ => do
  popReg d 7
  popReg d 6
  popReg d 5
  let esp ← read (·.reg .l rESP)
  write (·.setReg .l rESP (esp + d.len))
  popReg d 3
  popReg d 2
  popReg d 1
  popReg d 0
  return 1

def leave : Helper P := fun _ => do
  let ebp ← read (·.reg .l rEBP)
  write (·.setReg .l rESP ebp)
  let v ← swaddrRead ebp 4 2
  write (·.setReg .l rEBP v)
  write (·.setReg .l rESP (ebp + 4))
  return 1

/-! ### Conditions -/

/-- The conditions of `jcc` and `setcc`. -/
inductive Cc where
  | o | no | b | ae | e | ne | be | a | s | ns | p | np | l | ge | le | g
  deriving DecidableEq

/-- What `jcc_CC` and `setcc_CC` test. -/
def Cc.test (m : Machine P) : Cc → Bool
  | .o => m.flag .OF
  | .no => !m.flag .OF
  | .b => m.flag .CF
  | .ae => !m.flag .CF
  | .e => m.flag .ZF
  | .ne => !m.flag .ZF
  | .be => m.flag .CF || m.flag .ZF
  | .a => !m.flag .CF && !m.flag .ZF
  | .s => m.flag .SF
  | .ns => !m.flag .SF
  | .p => m.flag .PF
  | .np => !m.flag .PF
  | .l => m.flag .SF != m.flag .OF
  | .ge => m.flag .SF == m.flag .OF
  | .le => m.flag .ZF || m.flag .SF != m.flag .OF
  | .g => !m.flag .ZF && m.flag .SF == m.flag .OF

def setcc (c : Cc) : Helper P := fun eip => do
  let len ← decodeR2rm .b (eip + 1)
  let t ← read (Cc.test · c)
  writeOperand .b .dest (if t then 1 else 0)
  return 1 + len

def checkCcE (m : Machine P) : Bool := m.flag .ZF

def checkCcLe (m : Machine P) : Bool := xor (m.flag .SF) (m.flag .OF) || m.flag .ZF

/-- `make_cmovcc_helper`. -/
def cmov (check : Machine P → Bool) : Helper P := fun eip => do
  let len ← decodeRm2r d (eip + 1)
  let t ← read check
  let src ← read (·.val .src)
  (if t then writeOperand d .dest src else pure ())
  return len + 1

def cmove : Helper P := cmov d checkCcE
def cmovle : Helper P := cmov d checkCcLe

/-! ### Control transfer -/

/-- `next_addr`. -/
def nextAddr : Helper P := fun eip => do
  if d = .w then
    let disp ← instrFetch (eip + 1) d.bytes
    return (eip + 1 + d.len + disp) &&& 0xffff
  else
    let _ ← decodeSi d (eip + 1)
    let simm ← read (·.loc .src)
    return eip + 1 + d.len + simm

/-- `jcc_e` and the others: the new `eip` is such that adding the length, and one
more for the two-byte opcodes (`for_2_bit`), gives the target. -/
def jcc (c : Cc) : Helper P := fun eip => do
  let curAddr ← nextAddr d eip
  let t ← read (Cc.test · c)
  (if t then write (·.setEip (curAddr - (1 + d.len) - if d = .b then 0 else 1)) else pure ())
  return d.len + 1

/-- The jump of `jmp`; the length is decoded again, after `cpu.eip`. -/
def doJmp : Cmd (Machine P) Unit := do
  let v ← read (·.val .src)
  let type ← read (·.type .src)
  let eip ← read (·.eip)
  if type = .mem ∨ type = .reg then
    let len ← decodeRm d (eip + 1)
    write (·.setEip (d.trunc v - len - 1))
  else write (·.setEip (eip + d.sext v))

/-- `jmp_l`: the selector is read 5 bytes after the opcode at both sizes. -/
def jmpL : Helper P := fun eip => do
  let offset ← instrFetch (eip + 1) d.bytes
  let cs ← instrFetch (eip + 5) 2
  let target := offset - d.len - 3
  write (·.setEip (if d = .w then target &&& 0xffff else target))
  loadSreg 1 (cs.setWidth 16)
  return d.len + 3

/-- `call_i`: what is pushed is `cpu.eip + len`. -/
def callI : Helper P := fun eip => do
  let len ← decodeI d (eip + 1)
  let esp ← read (·.reg .l rESP)
  let cur ← read (·.eip)
  write (·.setReg .l rESP (esp - d.len))
  swaddrWrite (esp - d.len) 4 (cur + len) 1
  let v ← read (·.val .src)
  write (·.setEip (cur + d.sext v))
  return len + 1

def callRm : Helper P := fun eip => do
  let len ← decodeRm d (eip + 1)
  let esp ← read (·.reg .l rESP)
  let cur ← read (·.eip)
  write (·.setReg .l rESP (esp - d.len))
  swaddrWrite (esp - d.len) 4 (cur + len) 1
  let v ← read (·.val .src)
  write (·.setEip (d.sext v - len - 1))
  return len + 1

def retO : Helper P := fun _ => do
  let esp ← read (·.reg .l rESP)
  let v ← swaddrRead esp d.bytes 1
  write (·.setEip v)
  write (·.setReg .l rESP (esp + d.len))
  return 1

/-- `ret_i`: the arguments on the stack are overwritten with zeroes. -/
def retI : Helper P := fun eip => do
  let val ← instrFetch (eip + 1) 2
  let esp ← read (·.reg d rESP)
  let v ← swaddrRead esp d.bytes 1
  write (·.setEip (d.trunc v))
  write (·.setReg d rESP (esp + d.len))
  let esp ← read (·.reg d rESP)
  upto (fun i => swaddrWrite (esp + BitVec.ofNat 32 (i * d.bytes)) d.bytes 0 1)
    ((val.toInt.toNat + d.bytes - 1) / d.bytes)
  write (·.setReg d rESP (esp + val))
  return 1

/-- `iret`: only the selector of `cs` is restored. -/
def iret : Helper P := fun _ => do
  let esp ← read (·.reg .l rESP)
  let eip ← swaddrRead esp 4 2
  write (·.setEip eip)
  write (·.setReg .l rESP (esp + 4))
  let cs ← swaddrRead (esp + 4) 4 2
  write (·.setSelector 1 (cs.setWidth 16))
  write (·.setReg .l rESP (esp + 4 + 4))
  let eflags ← swaddrRead (esp + 4 + 4) 4 2
  write (·.setEflags eflags)
  write (·.setReg .l rESP (esp + 4 + 4 + 4))
  return 0

/-! ### Strings -/

/-- An index register moves by the operand size, with the direction of `DF`. -/
def stepIndex (i : Fin 8) : Cmd (Machine P) Unit := do
  let down ← read (·.flag .DF)
  let v ← read (·.reg .l i)
  write (·.setReg .l i (if down then v - d.len else v + d.len))

def doMovs : Cmd (Machine P) Unit := do
  let esi ← read (·.reg .l rESI)
  let v ← swaddrRead esi d.bytes 3
  let edi ← read (·.reg .l rEDI)
  swaddrWrite edi d.bytes v 0
  stepIndex d rEDI
  stepIndex d rESI

def doStos : Cmd (Machine P) Unit := do
  let edi ← read (·.reg .l rEDI)
  let v ← read (·.reg d rEAX)
  swaddrWrite edi d.bytes v 0
  stepIndex d rEDI

def doLods : Cmd (Machine P) Unit := do
  let esi ← read (·.reg .l rESI)
  let v ← swaddrRead esi d.bytes 3
  write (·.setReg d rEAX v)
  stepIndex d rESI

/-- `scas`: the overflow flag is computed from the `val` fields of the operands,
which the decoder does not fill. -/
def doScas : Cmd (Machine P) Unit := do
  let edi ← read (·.reg .l rEDI)
  let dest ← swaddrRead edi d.bytes 0
  let src ← read (·.reg d rEAX)
  let result := d.trunc (src - dest)
  let destVal ← read (·.val .dest)
  let srcVal ← read (·.val .src)
  setSubFlags d (src.ult dest) destVal srcVal result
  stepIndex d rEDI

/-! ### I/O and the rest -/

def inI : Helper P := fun eip => do
  let len ← decodeI .b (eip + 1)
  let port ← read (·.val .src)
  let v ← bus (Bus.pioRead (port.setWidth 16) d.bytes)
  write (·.setReg d rEAX (v.setWidth 32))
  return 1 + len

def inD : Helper P := fun _ => do
  let dx ← read (·.reg .w rEDX)
  let v ← bus (Bus.pioRead (dx.setWidth 16) d.bytes)
  write (·.setReg d rEAX (v.setWidth 32))
  return 1

def outI : Helper P := fun eip => do
  let len ← decodeI .b (eip + 1)
  let port ← read (·.val .src)
  let eax ← read (·.reg d rEAX)
  bus (Bus.pioWrite (port.setWidth 16) d.bytes eax)
  return 1 + len

def outD : Helper P := fun _ => do
  let dx ← read (·.reg .w rEDX)
  let eax ← read (·.reg d rEAX)
  bus (Bus.pioWrite (dx.setWidth 16) d.bytes eax)
  return 1

def hlt : Helper P := fun _ => do
  let intr ← read fun m : Machine P => Bus.INTR m.bus
  let eip ← read (·.eip)
  (if intr then pure () else write (·.setEip (eip - 1)))
  return 1

def cli : Helper P := fun _ => do
  write (·.setFlag .IF false)
  return 1

def sti : Helper P := fun _ => do
  write (·.setFlag .IF true)
  return 1

def cld : Helper P := fun _ => do
  write (·.setFlag .DF false)
  return 1

def std : Helper P := fun _ => do
  write (·.setFlag .DF true)
  return 1

def nop : Helper P := fun _ => pure 1

def int3 : Helper P := fun _ => do
  write (·.setState .stop)
  return 1

/-- `nemu_trap`: with `eax = 2` it reads what it prints, else the program ends. -/
def nemuTrap : Helper P := fun _ => do
  let eax ← read (·.reg .l rEAX)
  let len ← read (·.reg .l rEDX)
  let addr ← read (·.reg .l rECX)
  (if eax = 2 then
    upto (fun i => do
      let _ ← swaddrRead (addr + BitVec.ofNat 32 i) 1 3
      pure ()) len.toInt.toNat
  else write (·.setState .ended))
  return 1

/-- `inv` ends in a failed assertion, after it read what it prints. -/
def inv : Helper P := fun _ => abort

end Instr

end Instr

end Nemu
