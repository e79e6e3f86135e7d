/-
# The kernel's disk cache and the IDE device

`buffer.c`, `disk.c` and `ide.c` of the kernel over `device/ide.c`: 128 sector
buffers, direct-mapped by sector number, filled and written back through a
device that takes one command at a time. The driver is a program of port
accesses and buffer-field updates (`Preempt.Prog`), between any two of which
the timer interrupt may run `ide_writeback`.

The IRQ 14 that a read command raises only sets a flag that this driver does
not look at, and is left out. The disk image covers the sectors that are used.

Key definitions: `Ide`, `DState`, `Act`, `actSem`, `bufFetch`, `readByte`,
`writeByte`, `ideWriteback`, `runCalls`.
-/
import Nemu.Lib.Bytes
import Nemu.Lib.Preempt
import Mathlib.Logic.Function.Basic

namespace Nemu

open Bytes Preempt

/-- How an access can fail: an assertion of the device, or a `waitdisk` that
never ends. -/
inductive Fault where
  | assert
  | spins
  deriving DecidableEq

/-! ### The device -/

/-- `ide_port_base`, the position of `disk_fp`, `byte_cnt`, `ide_write`, and
the disk image. -/
structure Ide where
  port : ℕ → Byte
  pos : ℕ
  byteCnt : ℕ
  ideWrite : Bool
  disk : ℕ → Byte

/-- The sector that the ports name. -/
def portSector (port : ℕ → Byte) : Word :=
  (port 6 &&& 0x1f).setWidth 32 <<< 24 ||| (port 5).setWidth 32 <<< 16 |||
    (port 4).setWidth 32 <<< 8 ||| (port 3).setWidth 32

/-- Four more bytes of the command are done. -/
def Ide.advance (d : Ide) : Ide :=
  { d with
    pos := d.pos + 4
    byteCnt := d.byteCnt + 4
    port := if d.byteCnt + 4 = 512 then Function.update d.port 7 0x40 else d.port }

/-- `ide_io_handler`, for the port `addr` counted from `IDE_PORT`. -/
def ideIoHandler (d : Ide) (addr len : ℕ) (isWrite : Bool) : Except Fault Ide :=
  if ¬ d.byteCnt ≤ 512 then .error .assert
  else if isWrite then
    if addr = 0 ∧ len = 4 then
      if d.ideWrite then
        .ok { d with disk := fun n =>
                if d.pos ≤ n ∧ n < d.pos + 4 then d.port (n - d.pos) else d.disk n }.advance
      else .error .assert
    else if addr = 7 then
      if d.port 7 = 0x20 ∨ d.port 7 = 0x30 then
        let d := { d with pos := (portSector d.port <<< 9).toNat, byteCnt := 0 }
        if d.port 7 = 0x20 then
          .ok { d with ideWrite := false, port := Function.update d.port 7 0x40 }
        else .ok { d with ideWrite := true }
      else if d.port 7 = 0xc8 then .ok d
      else .error .assert
    else .ok d
  else
    if addr = 0 ∧ len = 4 then
      if d.ideWrite then .error .assert
      else
        .ok { d with port := fun i => if i < 4 then d.disk (d.pos + i) else d.port i }.advance
    else .ok d

/-- `pio_write` to the device's ports. -/
def pioWrite (d : Ide) (addr len : ℕ) (data : Word) : Except Fault Ide :=
  ideIoHandler { d with port := fun i =>
    if addr ≤ i ∧ i < addr + len then byte data (i - addr) else d.port i } addr len true

/-- `pio_read` from the device's ports. -/
def pioRead (d : Ide) (addr len : ℕ) : Except Fault (Word × Ide) := do
  let d ← ideIoHandler d addr len false
  return (word (fun i => d.port (addr + i)) len, d)

/-! ### The buffers -/

structure SectorBuf where
  sector : Word
  used : Bool
  dirty : Bool
  content : ℕ → Byte

/-- The driver's state: `buf`, `counter` of `ide_writeback`, and the device. -/
structure DState where
  buf : ℕ → SectorBuf
  counter : Word
  ide : Ide

def DState.setBuf (s : DState) (i : ℕ) (b : SectorBuf) : DState :=
  { s with buf := Function.update s.buf i b }

/-- The atomic actions: port accesses (the ports counted from `IDE_PORT_BASE`)
and accesses to the fields of a buffer. `outWord i k` is the `out_long` of word
`k` of buffer `i`; `spin` is `waitdisk` without end. -/
inductive Act where
  | inByte (port : ℕ)
  | outByte (port : ℕ) (data : Byte)
  | inLong
  | outWord (i k : ℕ)
  | spin
  | getBuf (i : ℕ)
  | setWord (i k : ℕ) (data : Word)
  | setByte (i j : ℕ) (data : Byte)
  | setUsed (i : ℕ) (b : Bool)
  | setSector (i : ℕ) (sector : Word)
  | setDirty (i : ℕ) (b : Bool)

/-- What an action returns. -/
def Act.Res : Act → Type
  | inByte _ => Byte
  | inLong => Word
  | getBuf _ => SectorBuf
  | _ => Unit

def actSem : (a : Act) → DState → Except Fault (a.Res × DState)
  | .inByte port, s => do
    let (v, d) ← pioRead s.ide port 1
    return (byte v 0, { s with ide := d })
  | .outByte port data, s => do
    let d ← pioWrite s.ide port 1 (data.setWidth 32)
    return ((), { s with ide := d })
  | .inLong, s => do
    let (v, d) ← pioRead s.ide 0 4
    return (v, { s with ide := d })
  | .outWord i k, s => do
    let d ← pioWrite s.ide 0 4 (word (fun j => (s.buf i).content (4 * k + j)) 4)
    return ((), { s with ide := d })
  | .spin, _ => .error .spins
  | .getBuf i, s => .ok (s.buf i, s)
  | .setWord i k data, s => .ok ((), s.setBuf i { s.buf i with
      content := fun n =>
        if 4 * k ≤ n ∧ n < 4 * k + 4 then byte data (n - 4 * k) else (s.buf i).content n })
  | .setByte i j data, s => .ok ((), s.setBuf i { s.buf i with
      content := Function.update (s.buf i).content j data })
  | .setUsed i b, s => .ok ((), s.setBuf i { s.buf i with used := b })
  | .setSector i sector, s => .ok ((), s.setBuf i { s.buf i with sector := sector })
  | .setDirty i b, s => .ok ((), s.setBuf i { s.buf i with dirty := b })

/-! ### The driver -/

abbrev Driver (α : Type) : Type := Prog Act Act.Res α

open Prog

/-- An action whose result is not used. -/
def step (a : Act) : Driver Unit := do
  let _ ← perform a
  return ()

def inByte (port : ℕ) : Driver Byte := perform (Act.inByte port)
def inLong : Driver Word := perform Act.inLong
def getBuf (i : ℕ) : Driver SectorBuf := perform (Act.getBuf i)

/-- `waitdisk`, given up after `n` polls. -/
def waitdisk : ℕ → Driver Unit
  | 0 => step .spin
  | n + 1 => do
    let status ← inByte 7
    if status &&& (0x80 ||| 0x40) ≠ 0x40 then waitdisk n else return ()

section Driver

variable (polls : ℕ)

def idePrepare (sector : Word) : Driver Unit := do
  waitdisk polls
  step (.outByte 1 0)
  step (.outByte 2 1)
  step (.outByte 3 (byte sector 0))
  step (.outByte 4 (byte sector 1))
  step (.outByte 5 (byte sector 2))
  step (.outByte 6 (0xE0 ||| byte sector 3))

/-- `disk_do_write(&buf[i].content, sector)`. -/
def diskDoWrite (i : ℕ) (sector : Word) : Driver Unit := do
  idePrepare polls sector
  step (.outByte 7 0x30)
  upto (fun k => step (.outWord i k)) 128

/-- `disk_do_read(&buf[i].content, sector)`. -/
def diskDoRead (i : ℕ) (sector : Word) : Driver Unit := do
  idePrepare polls sector
  step (.outByte 7 0x20)
  upto (fun k => do
    let data ← inLong
    step (.setWord i k data)) 128

def bufWriteback : Driver Unit :=
  upto (fun i => do
    let ptr ← getBuf i
    if ptr.dirty = true then do
      diskDoWrite polls i ptr.sector
      step (.setDirty i false)
    else return ()) 128

/-- `buf_fetch`: the index of the buffer. -/
def bufFetch (sector : Word) : Driver ℕ := do
  let i := sector.toNat % 128
  let ptr ← getBuf i
  if ptr.used = true ∧ ptr.sector = sector then return i
  else do
    let ptr ← getBuf i
    (if ptr.used = true ∧ ptr.dirty = true then diskDoWrite polls i ptr.sector else return ())
    diskDoRead polls i sector
    step (.setUsed i true)
    step (.setSector i sector)
    step (.setDirty i false)
    return i

def readByte (offset : Word) : Driver Byte := do
  let i ← bufFetch polls (offset >>> 9)
  let ptr ← getBuf i
  return ptr.content (offset &&& 511).toNat

def writeByte (offset : Word) (data : Byte) : Driver Unit := do
  let i ← bufFetch polls (offset >>> 9)
  step (.setByte i (offset &&& 511).toNat data)
  step (.setDirty i true)

/-- `ide_writeback`, the IRQ 0 handler: every 100 ticks it writes all dirty
buffers back. -/
def ideWriteback (s : DState) : Except Fault DState :=
  let s := { s with counter := s.counter + 1 }
  if s.counter = 100 then do
    let (_, s) ← run actSem (bufWriteback polls) s
    return { s with counter := 0 }
  else return s

/-! ### Runs -/

inductive DiskCall where
  | read (offset : Word)
  | write (offset : Word) (data : Byte)

/-- A sequence of calls; what its reads return, in order. -/
def runCalls : List DiskCall → Driver (List Byte)
  | [] => return []
  | .read offset :: cs => do
    let b ← readByte polls offset
    let bs ← runCalls cs
    return b :: bs
  | .write offset data :: cs => do
    writeByte polls offset data
    runCalls cs

end Driver

/-- `init_ide` and `buf_init`: no buffer is used, the device is idle. -/
structure DState.Booted (s : DState) : Prop where
  unused : ∀ i, (s.buf i).used = false
  clean : ∀ i, (s.buf i).dirty = false
  ready : s.ide.port 7 = 0x40
  idle : s.ide.byteCnt = 0

end Nemu
