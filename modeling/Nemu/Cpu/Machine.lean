/-
# The emulated processor

`CPU_state`, the operand records `ops_decoded` that decoders fill and
instructions read, and the accesses to segmented memory. What is behind a
linear address (translation, caches, DRAM, memory-mapped devices), the I/O
ports and the interrupt controller are a `Bus`: nothing here depends on what it
does. Of the texts of the trace log only the length of `assembly` is kept, on
which `rep`, `repnz` and the log depend.

Everything a command changes goes through one of the setters of `Machine`, so
that the instances of `Kept` and `Synced` for the setters reach every helper.

Key definitions: `CpuState`, `Operand`, `Bus`, `Machine`, `swaddrRead`,
`swaddrWrite`, `loadCs`.
-/
import Nemu.Lib.Bytes
import Nemu.Lib.Cmd
import Mathlib.Logic.Function.Basic

namespace Nemu

open Bytes Cmd

/-! ### Widths -/

/-- `DATA_BYTE`: the suffixes `b`, `w` and `l`. -/
inductive Width where
  | b | w | l
  deriving DecidableEq

namespace Width

def bytes : Width → ℕ
  | b => 1
  | w => 2
  | l => 4

def bits (d : Width) : ℕ := 8 * d.bytes

/-- `(DATA_TYPE) x`. -/
def trunc (d : Width) (x : Word) : Word := (x.setWidth d.bits).setWidth 32

/-- `(DATA_TYPE_S) x`. -/
def sext (d : Width) (x : Word) : Word := (x.setWidth d.bits).signExtend 32

/-- `MSB(x)`. -/
def msb (d : Width) (x : Word) : Bool := x.getLsbD (d.bits - 1)

/-- `DATA_BYTE` as a length. -/
def len (d : Width) : Word := BitVec.ofNat 32 d.bytes

end Width

/-! ### The registers -/

/-- The bits of `eflags` that the emulator uses. -/
inductive Flag where
  | CF | PF | ZF | SF | IF | DF | OF
  deriving DecidableEq

def Flag.bit : Flag → ℕ
  | CF => 0
  | PF => 2
  | ZF => 6
  | SF => 7
  | IF => 9
  | DF => 10
  | OF => 11

/-- The parts of a cached segment descriptor that are loaded. -/
structure SegDesc where
  base15_0 : BitVec 16
  base23_16 : BitVec 8
  base31_24 : BitVec 8
  limit15_0 : BitVec 16
  limit19_16 : BitVec 4

def SegDesc.base (d : SegDesc) : Word :=
  d.base31_24.setWidth 32 <<< 24 ||| d.base23_16.setWidth 32 <<< 16 ||| d.base15_0.setWidth 32

structure SegReg where
  selector : BitVec 16
  cache : SegDesc

/-- `INDEX` of a selector. -/
def segIndex (selector : BitVec 16) : Word := selector.setWidth 32 >>> 3

structure DescReg where
  limit : BitVec 16
  base : Word

/-- `CPU_state`, without `INTR`, which the interrupt controller sets. -/
structure CpuState where
  gpr : Fin 8 → Word
  eflags : Word
  eip : Word
  gdtr : DescReg
  idtr : DescReg
  sreg : Fin 6 → SegReg
  cr0 : Word
  cr3 : Word

abbrev rEAX : Fin 8 := 0
abbrev rECX : Fin 8 := 1
abbrev rEDX : Fin 8 := 2
abbrev rESP : Fin 8 := 4
abbrev rEBP : Fin 8 := 5
abbrev rESI : Fin 8 := 6
abbrev rEDI : Fin 8 := 7

namespace CpuState

/-- `REG(i)`: `reg_b`, `reg_w` or `reg_l`. -/
def reg (c : CpuState) : Width → Fin 8 → Word
  | .b, i => Width.trunc .b (c.gpr (i &&& 3) >>> (8 * (i.val / 4)))
  | .w, i => Width.trunc .w (c.gpr i)
  | .l, i => c.gpr i

/-- `REG(i) = v`. -/
def setReg (c : CpuState) (d : Width) (i : Fin 8) (v : Word) : CpuState :=
  match d with
  | .b =>
    let k := 8 * (i.val / 4)
    let old := c.gpr (i &&& 3) &&& ~~~(0xff#32 <<< k)
    { c with gpr := Function.update c.gpr (i &&& 3) (old ||| Width.trunc .b v <<< k) }
  | .w => { c with gpr := Function.update c.gpr i (c.gpr i &&& 0xffff0000 ||| Width.trunc .w v) }
  | .l => { c with gpr := Function.update c.gpr i v }

def flag (c : CpuState) (f : Flag) : Bool := c.eflags.getLsbD f.bit

def setFlag (c : CpuState) (f : Flag) (b : Bool) : CpuState :=
  { c with eflags := if b then c.eflags ||| 1#32 <<< f.bit else c.eflags &&& ~~~(1#32 <<< f.bit) }

/-- `cr0.protect_enable`. -/
def protectEnable (c : CpuState) : Bool := c.cr0.getLsbD 0

/-- The linear address of an address in a segment. -/
def linear (c : CpuState) (addr : Word) (sreg : Fin 6) : Word :=
  if c.protectEnable then addr + (c.sreg sreg).cache.base else addr

end CpuState

/-! ### The operand records -/

inductive OpType where
  | reg | mem | imm
  deriving DecidableEq

/-- `Operand`; `loc` is the union of `reg`, `addr`, `imm` and `simm`. -/
structure Operand where
  type : OpType
  size : ℕ
  loc : Word
  sreg : ℕ
  val : Word

/-- Which of the operand records. -/
inductive Slot where
  | src | dest | src2
  deriving DecidableEq

/-- `ops_decoded`. -/
structure Operands where
  opcode : Word
  isOperandSize16 : Bool
  operand : Slot → Operand

/-! ### The rest of the machine -/

/-- What the processor is connected to: the accesses to linear memory under
`cr0` and `cr3` (`none` where an assertion fails; a read's length is checked
before), the I/O ports, and the interrupt controller. What is read is masked to
its length. -/
class Bus (P : Type) where
  lnaddrRead (cr0 cr3 addr : Word) (len : ℕ) : P → Option (BitVec (8 * len) × P)
  lnaddrWrite (cr0 cr3 addr : Word) (len : ℕ) (data : Word) : P → Option (Unit × P)
  initTLB : P → P
  pioRead (addr : BitVec 16) (len : ℕ) : P → Option (BitVec (8 * len) × P)
  pioWrite (addr : BitVec 16) (len : ℕ) (data : Word) : P → Option (Unit × P)
  INTR : P → Bool
  i8259QueryIntr : P → Byte
  i8259AckIntr : P → Option (Unit × P)

/-- `nemu_state`. -/
inductive NemuState where
  | stop | running | ended
  deriving DecidableEq

/-- The bytes of `assembly`. -/
scoped instance assemblySize : NeZero 80 := ⟨by decide⟩

/-- `assembly`, into which `print_asm` writes the text of an instruction: how long it
is, and how long those are that come next. -/
structure Assembly where
  length : Fin 80
  next : ℕ → Fin 80

/-- The opcodes of `operand_size`, `repnz` and `rep`, which print no text of their own. -/
def prefixOpcodes : List Word := [0x66, 0xf2, 0xf3]

/-- The opcodes of `movs`, `stos`, `lods` and `scas`; their texts are these names. -/
def stringOpcodes : List Word := [0xa4, 0xa5, 0xaa, 0xab, 0xac, 0xad, 0xae, 0xaf]

/-- What is there after the instruction with this opcode. -/
def Assembly.print (a : Assembly) (opcode : Word) : Assembly :=
  if opcode ∈ prefixOpcodes then a
  else ⟨if opcode ∈ stringOpcodes then 4 else a.next 0, fun k => a.next (k + 1)⟩

structure Machine (P : Type) where
  cpu : CpuState
  ops : Operands
  state : NemuState
  bus : P
  assembly : Assembly

namespace Machine

variable {P : Type} (m : Machine P)

def reg (d : Width) (i : Fin 8) : Word := m.cpu.reg d i
def flag (f : Flag) : Bool := m.cpu.flag f
def eip : Word := m.cpu.eip
def operand (k : Slot) : Operand := m.ops.operand k
def val (k : Slot) : Word := (m.operand k).val
def loc (k : Slot) : Word := (m.operand k).loc
def type (k : Slot) : OpType := (m.operand k).type

def setReg (d : Width) (i : Fin 8) (v : Word) : Machine P := { m with cpu := m.cpu.setReg d i v }
def setFlag (f : Flag) (b : Bool) : Machine P := { m with cpu := m.cpu.setFlag f b }
def setEflags (v : Word) : Machine P := { m with cpu := { m.cpu with eflags := v } }
def setEip (v : Word) : Machine P := { m with cpu := { m.cpu with eip := v } }
def setGdtr (d : DescReg) : Machine P := { m with cpu := { m.cpu with gdtr := d } }
def setIdtr (d : DescReg) : Machine P := { m with cpu := { m.cpu with idtr := d } }
def setCr0 (v : Word) : Machine P := { m with cpu := { m.cpu with cr0 := v } }
def setCr3 (v : Word) : Machine P := { m with cpu := { m.cpu with cr3 := v } }

def setSreg (i : Fin 6) (s : SegReg) : Machine P :=
  { m with cpu := { m.cpu with sreg := Function.update m.cpu.sreg i s } }

def setSelector (i : Fin 6) (v : BitVec 16) : Machine P :=
  m.setSreg i { m.cpu.sreg i with selector := v }

/-- With the opcode comes the text: nothing reads it before the instruction prints it. -/
def setOpcode (v : Word) : Machine P :=
  { m with ops := { m.ops with opcode := v }, assembly := m.assembly.print v }

def setOperandSize16 (b : Bool) : Machine P := { m with ops := { m.ops with isOperandSize16 := b } }

def setOperand (k : Slot) (o : Operand) : Machine P :=
  { m with ops := { m.ops with operand := Function.update m.ops.operand k o } }

def setType (k : Slot) (t : OpType) : Machine P := m.setOperand k { m.operand k with type := t }
def setSize (k : Slot) (n : ℕ) : Machine P := m.setOperand k { m.operand k with size := n }
def setLoc (k : Slot) (v : Word) : Machine P := m.setOperand k { m.operand k with loc := v }
def setOpSreg (k : Slot) (i : ℕ) : Machine P := m.setOperand k { m.operand k with sreg := i }
def setVal (k : Slot) (v : Word) : Machine P := m.setOperand k { m.operand k with val := v }

def setState (s : NemuState) : Machine P := { m with state := s }
def setText (n : Fin 80) : Machine P := { m with assembly := { m.assembly with length := n } }
def setBus (p : P) : Machine P := { m with bus := p }

end Machine

/-! ### Memory -/

section Memory

variable {P : Type} [Bus P]

/-- An access to the bus. -/
def bus {α : Type} (f : P → Option (α × P)) : Cmd (Machine P) α :=
  access fun m => (f m.bus).map fun r => (r.1, m.setBus r.2)

def lnaddrRead (addr : Word) (len : ℕ) : Cmd (Machine P) Word := do
  if len = 1 ∨ len = 2 ∨ len = 4 then
    let c ← read fun m : Machine P => (m.cpu.cr0, m.cpu.cr3)
    let v ← bus (Bus.lnaddrRead c.1 c.2 addr len)
    return v.setWidth 32
  else fail .length

def lnaddrWrite (addr : Word) (len : ℕ) (data : Word) : Cmd (Machine P) Unit := do
  let c ← read fun m : Machine P => (m.cpu.cr0, m.cpu.cr3)
  bus (Bus.lnaddrWrite c.1 c.2 addr len data)

/-- `seg_translate`; the segments are `es`, `cs`, `ss` and `ds`. -/
def segTranslate (addr : Word) (sreg : ℕ) : Cmd (Machine P) Word :=
  if sreg < 4 then read fun m => m.cpu.linear addr (Fin.ofNat 6 sreg) else abort

def swaddrRead (addr : Word) (len : ℕ) (sreg : ℕ) : Cmd (Machine P) Word := do
  if len = 1 ∨ len = 2 ∨ len = 4 then
    let lnaddr ← segTranslate addr sreg
    lnaddrRead lnaddr len
  else fail .length

def swaddrWrite (addr : Word) (len : ℕ) (data : Word) (sreg : ℕ) : Cmd (Machine P) Unit := do
  if len = 1 ∨ len = 2 ∨ len = 4 then
    let lnaddr ← segTranslate addr sreg
    lnaddrWrite lnaddr len data
  else fail .length

def instrFetch (addr : Word) (len : ℕ) : Cmd (Machine P) Word := swaddrRead addr len 1

/-- A segment register is loaded: the selector, then its descriptor from the GDT. -/
def loadSreg (i : Fin 6) (selector : BitVec 16) : Cmd (Machine P) Unit := do
  write (·.setSelector i selector)
  let gdt ← read fun m : Machine P => m.cpu.gdtr.base
  let desc := gdt + 8 * segIndex selector
  let base15 ← lnaddrRead (desc + 2) 2
  let base23 ← lnaddrRead (desc + 4) 1
  let base31 ← lnaddrRead (desc + 7) 1
  let limit15 ← lnaddrRead desc 2
  let limit19 ← lnaddrRead (desc + 6) 1
  write (·.setSreg i
    { selector := selector
      cache :=
        { base15_0 := base15.setWidth 16
          base23_16 := base23.setWidth 8
          base31_24 := base31.setWidth 8
          limit15_0 := limit15.setWidth 16
          limit19_16 := (limit19 &&& 0xf).setWidth 4 } })

end Memory

end Nemu
