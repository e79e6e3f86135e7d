/-
# Arithmetic and logic instructions

The `do_execute` of `exec/arith` and `exec/logic`, each under the name that the
templates give it (`do_add_b` is `doAdd .b`). The flags are computed as the
source computes them, from the 32-bit fields `val` of the operands and the
result truncated to the operand size.

Key definitions: `parity`, `setResultFlags`, `doAdd`, `doAdc`, `doSub`,
`doSbb`, `doCmp`, the logic and shift instructions, `doMul`, `doDiv`.
-/
import Nemu.Cpu.Decode

namespace Nemu

open Bytes Cmd

/-- `PF`, for `result ^= result >> 4`, `>> 2`, `>> 1` and the lowest bit. -/
def parity (result : Word) : Bool :=
  let r := result ^^^ result >>> 4
  let r := r ^^^ r >>> 2
  let r := r ^^^ r >>> 1
  !r.getLsbD 0

namespace Instr

section Arith

variable {P : Type} [Bus P] (d : Width)

/-- `SF`, `ZF` and `PF` of a result. -/
def setResultFlags (result : Word) : Cmd (Machine P) Unit := do
  write (·.setFlag .SF (d.msb result))
  write (·.setFlag .ZF (result == 0))
  write (·.setFlag .PF (parity result))

/-- The flags of an addition with this result. -/
def setAddFlags (dest src result : Word) : Cmd (Machine P) Unit := do
  write (·.setFlag .CF (result.ult dest))
  write (·.setFlag .OF (d.msb dest == d.msb src && d.msb result != d.msb dest))
  setResultFlags d result

/-- The flags of a subtraction with this result and this carry. -/
def setSubFlags (carry : Bool) (dest src result : Word) : Cmd (Machine P) Unit := do
  write (·.setFlag .CF carry)
  write (·.setFlag .OF (d.msb dest != d.msb src && d.msb result == d.msb src))
  setResultFlags d result

def doAdd : Cmd (Machine P) Unit := do
  let dest ← read (·.val .dest)
  let src ← read (·.val .src)
  let result := d.trunc (dest + src)
  writeOperand d .dest result
  setAddFlags d dest src result

def doAdc : Cmd (Machine P) Unit := do
  let dest ← read (·.val .dest)
  let src ← read (·.val .src)
  let carry ← read (·.flag .CF)
  let result := d.trunc (dest + src + if carry then 1 else 0)
  writeOperand d .dest result
  setAddFlags d dest src result

def doSub : Cmd (Machine P) Unit := do
  let dest ← read (·.val .dest)
  let src ← read (·.val .src)
  let result := d.trunc (dest - src)
  writeOperand d .dest result
  setSubFlags d (dest.ult src) dest src result

def doCmp : Cmd (Machine P) Unit := do
  let dest ← read (·.val .dest)
  let src ← read (·.val .src)
  setSubFlags d (dest.ult src) dest src (d.trunc (dest - src))

/-- Unlike `doSub` this looks at `size`, and may extend `op_src->val` for the
overflow flag only. -/
def doSbb : Cmd (Machine P) Unit := do
  let dest ← read (·.val .dest)
  let val ← read (·.val .src)
  let carry ← read (·.flag .CF)
  let src := d.trunc (d.trunc val + if carry then 1 else 0)
  let srcSize ← read fun m : Machine P => (m.operand .src).size
  let destSize ← read fun m : Machine P => (m.operand .dest).size
  let val := if srcSize = 1 ∧ destSize ≠ 1 then Width.sext .b val else val
  write (·.setVal .src val)
  let result := d.trunc (dest - src)
  writeOperand d .dest result
  setSubFlags d (dest.ult src) dest val result

/-! ### Logic -/

/-- The flags of a logical operation. -/
def setLogicFlags (result : Word) : Cmd (Machine P) Unit := do
  write (·.setFlag .CF false)
  write (·.setFlag .OF false)
  setResultFlags d result

/-- `and`, `or` and `xor`. -/
def doLogic (f : Word → Word → Word) : Cmd (Machine P) Unit := do
  let dest ← read (·.val .dest)
  let src ← read (·.val .src)
  let result := d.trunc (f dest src)
  writeOperand d .dest result
  setLogicFlags d result

def doAnd : Cmd (Machine P) Unit := doLogic d (· &&& ·)
def doOr : Cmd (Machine P) Unit := doLogic d (· ||| ·)
def doXor : Cmd (Machine P) Unit := doLogic d (· ^^^ ·)

def doTest : Cmd (Machine P) Unit := do
  let dest ← read (·.val .dest)
  let src ← read (·.val .src)
  setLogicFlags d (d.trunc (dest &&& src))

/-! ### One operand -/

def doInc : Cmd (Machine P) Unit := do
  let src ← read (·.val .src)
  let result := d.trunc (src + 1)
  writeOperand d .src result
  write (·.setFlag .CF (result.ult src))
  write (·.setFlag .OF (!d.msb src && d.msb result != d.msb src))
  setResultFlags d result

def doDec : Cmd (Machine P) Unit := do
  let src ← read (·.val .src)
  let result := d.trunc (src - 1)
  writeOperand d .src result
  write (·.setFlag .CF (src.ult 1))
  write (·.setFlag .OF (d.msb src && !d.msb result))
  setResultFlags d result

def doNeg : Cmd (Machine P) Unit := do
  let src ← read (·.val .src)
  writeOperand d .src (d.trunc (-src))

def doNot : Cmd (Machine P) Unit := do
  let src ← read (·.val .src)
  let result := d.trunc (~~~src)
  writeOperand d .src result
  write (·.setFlag .ZF (result == 0))

/-! ### Shifts -/

/-- `shl`, `shr` and `sar`, for the carry and the result of a count. -/
def doShift (carry : Word → Bool) (f : Word → ℕ → Word) : Cmd (Machine P) Unit := do
  let val ← read (·.val .src)
  let dest ← read (·.val .dest)
  let src := d.trunc val
  write (·.setFlag .CF (carry src))
  let result := d.trunc (f dest (src &&& 0x1f).toNat)
  writeOperand d .dest result
  setResultFlags d result

def doShl : Cmd (Machine P) Unit := doShift d d.msb fun dest count => d.trunc dest <<< count

def doShr : Cmd (Machine P) Unit :=
  doShift d (fun src => d.msb (src <<< (d.bits - 1))) fun dest count => d.trunc dest >>> count

def doSar : Cmd (Machine P) Unit :=
  doShift d (fun src => d.msb (src <<< (d.bits - 1))) fun dest count =>
    (d.sext dest).sshiftRight count

/-- One round of the loop of `shrd`, on `in` and `out`. -/
def shrdStep (x : Word × Word) : Word × Word :=
  (x.1 >>> 1, x.2 >>> 1 ||| d.trunc ((x.1 &&& 1) <<< (d.bits - 1)))

def doShrd : Cmd (Machine P) Unit := do
  let dest ← read (·.val .dest)
  let src2 ← read (·.val .src2)
  let val ← read (·.val .src)
  let count := (Width.trunc .b val &&& 0x1f).toNat
  writeOperand d .src2 ((shrdStep d)^[count] (d.trunc dest, d.trunc src2)).2

/-- `shrdi`: the operand in the register is read once more. -/
def shrdi : Helper P := fun eip => do
  let len ← decodeSiRm2r d (eip + 1)
  let loc ← read (·.loc .dest)
  let i ← checkRegIndex loc
  let v ← read (·.reg d i)
  write (·.setVal .dest v)
  doShrd d
  return len + 1

/-! ### Multiplication and division -/

/-- A double-width result goes to `ax`, or to `dx:ax` or `edx:eax`. -/
def setDouble (result : ℤ) : Cmd (Machine P) Unit :=
  if d = .b then write (·.setReg .w rEAX (BitVec.ofInt 32 result))
  else do
    write (·.setReg d rEAX (BitVec.ofInt 32 result))
    write (·.setReg d rEDX (BitVec.ofInt 32 (result / 2 ^ d.bits)))

def doMul : Cmd (Machine P) Unit := do
  let src ← read (·.val .src)
  let eax ← read (·.reg d rEAX)
  setDouble d (eax.toNat * src.toNat)

/-- `do_imul`, of the instructions with more than one operand. -/
def doImul : Cmd (Machine P) Unit := do
  let src ← read (·.val .src)
  let src2 ← read (·.val .src2)
  writeOperand d .dest (src * src2)

def imulRm2r : Helper P := fun eip => do
  let len ← decodeRm2r d (eip + 1)
  write fun m => m.setOperand .src2 (m.operand .dest)
  doImul d
  return len + 1

def imulRm2a : Helper P := fun eip => do
  let len ← decodeRm d (eip + 1)
  let src ← read (·.val .src)
  let eax ← read (·.reg d rEAX)
  setDouble d ((d.sext eax).toInt * (d.sext src).toInt)
  return len + 1

/-- The quotient and the remainder go to the registers; with a zero divisor the
emulator itself gets a `SIGFPE`. -/
def setQuotient (b q r : ℤ) : Cmd (Machine P) Unit := do
  if b = 0 then abort
  else
    write (·.setReg d rEAX (BitVec.ofInt 32 q))
    write (·.setReg d rEDX (BitVec.ofInt 32 r))

def doDiv : Cmd (Machine P) Unit := do
  let src ← read (·.val .src)
  let ax ← read (·.reg .w rEAX)
  let eax ← read (·.reg d rEAX)
  let edx ← read (·.reg d rEDX)
  let a := if d = .b then ax.toNat else edx.toNat * 2 ^ d.bits + eax.toNat
  let b := (d.trunc src).toNat
  setQuotient d b ((a / b : ℕ) : ℤ) ((a % b : ℕ) : ℤ)

/-- The dividend `edx:eax` is a 64-bit number; `dx:ax` is one that is never
negative. -/
def doIdiv : Cmd (Machine P) Unit := do
  let src ← read (·.val .src)
  let ax ← read (·.reg .w rEAX)
  let eax ← read (·.reg d rEAX)
  let edx ← read (·.reg d rEDX)
  let a : ℤ := match d with
    | .b => (Width.sext .w ax).toInt
    | .w => (edx.toNat * 2 ^ 16 + eax.toNat : ℕ)
    | .l => edx.toInt * 2 ^ 32 + eax.toNat
  let b := (d.sext src).toInt
  if a = -2 ^ 63 ∧ b = -1 then abort else setQuotient d b (a.tdiv b) (a.tmod b)

end Arith

end Instr

end Nemu
