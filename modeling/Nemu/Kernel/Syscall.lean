/-
# System calls

`do_syscall.c`, `serial.c`, `fs.c` and `mm_brk` of `mm.c`, from the boot of the
kernel on. A system call runs with interrupts enabled: between any two port
accesses a handler may run, which leaves the serial port, the heap and the table of
handlers as they are. The calls are those of an abstract kernel, which has an
output, a break and a list of handlers: `sys_write` puts out the bytes of the
buffer, and nothing in the trap frame changes but `eax`.

`mm_malloc` is in an object file; it is what the log `mallocs` says it was asked
for, and it stops the kernel when it has no memory left. From the first break on,
every address below the highest requested break is asked for exactly once.

Key definitions: `serialPrintc`, `mmBrk`, `doSyscall`, `boot`, `Spec.call`, `Quiet`.
Key theorems: `wp_printBuf`, `wp_doSyscall`, `boot_refines`, `boot_heap`.
-/
import Nemu.Cpu.TrapFrame
import Nemu.Device.Console
import Nemu.Kernel.IrqHandle

namespace Nemu

namespace Syscall

open Bytes Preempt Prog Console Irq

/-- The emulator stops at an assertion of a device, the kernel at one of its own, and `while`
may have no end. -/
inductive Halt where
  | device (f : Fault)
  | kernel (s : Stop)
  | spins
  deriving DecidableEq

/-- `cur_brk`, `max_brk`, and what `mm_malloc` was called with. -/
structure Heap where
  curBrk : Word
  maxBrk : Word
  mallocs : List (Word × Word)

section Heap

variable (grants : List (Word × Word) → Word × Word → Bool)

/-- `mm_malloc`. `grants` says whether it has the memory, after the calls before. -/
def mmMalloc (va len : Word) (h : Heap) : Except Halt Heap :=
  if grants h.mallocs (va, len) then .ok { h with mallocs := h.mallocs ++ [(va, len)] }
  else .error (.kernel .panic)

/-- `mm_brk`. -/
def mmBrk (newBrk : Word) (h : Heap) : Except Halt (Word × Heap) :=
  if newBrk ≠ 0 then do
    let h ← if newBrk > h.maxBrk then do
        let h ← mmMalloc grants h.maxBrk (newBrk - h.maxBrk) h
        pure { h with maxBrk := newBrk }
      else pure h
    let h := { h with curBrk := newBrk }
    return (h.curBrk, h)
  else return (h.curBrk, h)

end Heap

/-- The ports, the heap and the table of interrupt handlers. -/
structure KState where
  ports : Ports
  heap : Heap
  table : IrqTable

/-- What is atomic: a port access, `add_irq_handle` between `cli` and `sti`, and `mm_brk`, which
shares nothing with the handlers. -/
inductive Act where
  | inByte (port : ℕ)
  | outByte (port : ℕ) (data : Byte)
  | addIrqHandle (irq : ℤ) (func : Word)
  | mmBrk (newBrk : Word)
  | panic
  | spin

def Act.Res : Act → Type
  | inByte _ => Byte
  | mmBrk _ => Word
  | _ => Unit

section Acts

variable (grants : List (Word × Word) → Word × Word → Bool)

def actSem : (a : Act) → KState → Except Halt (a.Res × KState)
  | .inByte port, s =>
    match portRead s.ports port 1 with
    | .ok (v, ports) => .ok (byte v 0, { s with ports })
    | .error f => .error (.device f)
  | .outByte port data, s =>
    match portWrite s.ports port 1 (data.setWidth 32) with
    | .ok ports => .ok ((), { s with ports })
    | .error f => .error (.device f)
  | .addIrqHandle irq func, s =>
    match Irq.addIrqHandle irq func s.table with
    | .ok table => .ok ((), { s with table })
    | .error e => .error (.kernel e)
  | .mmBrk newBrk, s =>
    match Syscall.mmBrk grants newBrk s.heap with
    | .ok (brk, heap) => .ok (brk, { s with heap })
    | .error e => .error e
  | .panic, _ => .error (.kernel .panic)
  | .spin, _ => .error .spins

end Acts

abbrev Code (α : Type) : Type := Prog Act Act.Res α

def step (a : Act) : Code Unit := do
  let _ ← perform a
  return ()

def inByte (port : ℕ) : Code Byte := perform (Act.inByte port)

def brk (newBrk : Word) : Code Word := perform (Act.mmBrk newBrk)

/-- `SERIAL_PORT`. -/
def serialPort : ℕ := 0x3F8

/-- `init_serial`. -/
def initSerial : Code Unit := do
  step (.outByte (serialPort + 1) 0x00)
  step (.outByte (serialPort + 3) 0x80)
  step (.outByte (serialPort + 0) 0x01)
  step (.outByte (serialPort + 1) 0x00)
  step (.outByte (serialPort + 3) 0x03)
  step (.outByte (serialPort + 2) 0xC7)
  step (.outByte (serialPort + 4) 0x0B)

/-- `serial_idle`. -/
def serialIdle : Code Bool := do
  let status ← inByte (serialPort + 5)
  return decide (status &&& 0x20 ≠ 0)

/-- `while (!serial_idle());`, given up after so many polls. -/
def waitIdle : ℕ → Code Unit
  | 0 => step .spin
  | polls + 1 => do
    let idle ← serialIdle
    if idle then return () else waitIdle polls

section Calls

variable (polls : ℕ)

/-- `serial_printc`. -/
def serialPrintc (ch : Byte) : Code Unit := do
  waitIdle polls
  step (.outByte serialPort ch)

/-- `fs_ioctl`; `TCGETS` is 0x5401. -/
def fsIoctl (fd : ℤ) (request : Word) : Code Word := do
  if request = 0x5401 then return if 0 ≤ fd ∧ fd ≤ 2 then 0 else -1
  else
    step .panic
    return 0

/-- `for (i = 0; i < len; i ++) serial_printc(buf[i]);` -/
def printBuf (buf : ℕ → Byte) (n : ℕ) : Code Unit := upto (fun i => serialPrintc polls (buf i)) n

/-- `printk`, of what `vsnprintf` makes. -/
def printk (text : List Byte) : Code Unit := printBuf polls (fun i => text.getD i 0) text.length

/-- The byte `i` of a buffer. -/
def byteOf (mem : Word → Byte) (buf : Word) (i : ℕ) : Byte := mem (buf + BitVec.ofNat 32 i)

/-- `sys_write`. -/
def sysWrite (mem : Word → Byte) (tf : TrapFrame) : Code TrapFrame := do
  let fd := tf.ebx.toInt
  let len := tf.edx.toInt
  if fd = 1 ∨ fd = 2 then
    printBuf polls (byteOf mem tf.ecx) len.toNat
    return { tf with eax := tf.edx }
  else return tf

/-- `do_syscall`, for a buffer in `mem`. -/
def doSyscall (mem : Word → Byte) (tf : TrapFrame) : Code TrapFrame := do
  if tf.eax = 0 then
    step (.addIrqHandle tf.ebx.toInt tf.ecx)
    return tf
  else if tf.eax = 45 then
    let brk ← brk tf.ebx
    return { tf with eax := brk }
  else if tf.eax = 54 then
    let r ← fsIoctl tf.ebx.toInt tf.ecx
    return { tf with eax := r }
  else if tf.eax = 4 then sysWrite polls mem tf
  else
    step .panic
    return tf

/-- `init_ide`, whose `buf_init` is of no concern here. -/
def initIde (ideWriteback ideIntr : Word) : Code Unit := do
  step (.addIrqHandle 0 ideWriteback)
  step (.addIrqHandle 14 ideIntr)

/-- System calls, one after the other. -/
def serve (mem : Word → Byte) : List TrapFrame → Code (List TrapFrame)
  | [] => return []
  | tf :: tfs => do
    let tf ← doSyscall polls mem tf
    let tfs ← serve mem tfs
    return tf :: tfs

end Calls

/-! ### What the calls are for -/

/-- The abstract kernel: what was put out, the break, the highest break so far, and the routines
that were registered, with their lines. -/
structure Spec where
  out : List Byte
  brk : Word
  top : Word
  handlers : List (ℤ × Word)

/-- The bytes of a buffer. -/
def bufBytes (mem : Word → Byte) (buf : Word) (n : ℕ) : List Byte := (List.range n).map (byteOf mem buf)

/-- A system call, or `none` for one that the kernel may not survive. There is memory up to `limit`,
and there are 16 lines and 32 places for handlers. -/
def Spec.call (limit : Word) (mem : Word → Byte) (tf : TrapFrame) (k : Spec) : Option (TrapFrame × Spec) :=
  if tf.eax = 0 then
    if 0 ≤ tf.ebx.toInt ∧ tf.ebx.toInt < 16 ∧ k.handlers.length < 32 then
      some (tf, { k with handlers := k.handlers ++ [(tf.ebx.toInt, tf.ecx)] })
    else none
  else if tf.eax = 45 then
    if tf.ebx = 0 then some ({ tf with eax := k.brk }, k)
    else if tf.ebx ≤ limit then
      some ({ tf with eax := tf.ebx }, { k with brk := tf.ebx, top := if tf.ebx ≤ k.top then k.top else tf.ebx })
    else none
  else if tf.eax = 54 then
    if tf.ecx = 0x5401 then
      some ({ tf with eax := if 0 ≤ tf.ebx.toInt ∧ tf.ebx.toInt ≤ 2 then 0 else -1 }, k)
    else none
  else if tf.eax = 4 then
    if tf.ebx = 1 ∨ tf.ebx = 2 then
      some ({ tf with eax := tf.edx }, { k with out := k.out ++ bufBytes mem tf.ecx tf.edx.toInt.toNat })
    else some (tf, k)
  else none

def Spec.calls (limit : Word) (mem : Word → Byte) : List TrapFrame → Spec → Option (List TrapFrame × Spec)
  | [], k => some ([], k)
  | tf :: tfs, k => do
    let (tf, k) ← k.call limit mem tf
    let (tfs, k) ← Spec.calls limit mem tfs k
    return (tf :: tfs, k)

/-- The regions asked for lie one behind the other, from the first break to the highest. -/
inductive Tiles (b : Word) : List (Word × Word) → Word → Prop where
  | nil : Tiles b [] b
  | concat {top newBrk : Word} {l : List (Word × Word)} :
      Tiles b l top → top < newBrk → Tiles b (l ++ [(top, newBrk - top)]) newBrk

/-- `mm_malloc` has the memory from the first break up to `limit`. -/
def Roomy (grants : List (Word × Word) → Word × Word → Bool) (b limit : Word) : Prop :=
  ∀ l top newBrk, Tiles b l top → top < newBrk → newBrk ≤ limit → grants l (top, newBrk - top) = true

/-- The serial port is there, and is idle. -/
structure Ready (s : KState) : Prop where
  maps : s.ports.maps = consoleMaps
  idle : s.ports.space 0x3FD &&& 0x20 ≠ 0

/-- A handler that leaves the serial port, the heap and the table as they are. -/
def Quiet (handler : KState → Except Halt KState) : Prop :=
  ∀ s, Ready s → ∃ s', handler s = .ok s' ∧ Ready s' ∧ s'.ports.dev.stdout = s.ports.dev.stdout ∧
    s'.heap = s.heap ∧ s'.table = s.table

/-- The kernel is where the abstract one is, whose first break was `b`. -/
structure Shows (b : Word) (k : Spec) (s : KState) : Prop where
  ready : Ready s
  out : s.ports.dev.stdout = k.out
  brk : s.heap.curBrk = k.brk
  top : s.heap.maxBrk = k.top
  tiles : Tiles b s.heap.mallocs s.heap.maxBrk
  handlers : Registered k.handlers s.table

section Refines

variable {grants : List (Word × Word) → Word × Word → Bool} {handler : KState → Except Halt KState}
  {ok : Act → KState → Prop} {polls : ℕ} {mem : Word → Byte} {b limit : Word} {s : KState} {k : Spec}

theorem Quiet.keeps (hq : Quiet handler) (h : Shows b k s) : ∃ s', handler s = .ok s' ∧ Shows b k s' := by
  obtain ⟨s', hs', hready, hout, hheap, htable⟩ := hq s h.ready
  exact ⟨s', hs', hready, hout.trans h.out, hheap ▸ h.brk, hheap ▸ h.top, hheap ▸ h.tiles, htable ▸ h.handlers⟩

/-- An action, from what the handler keeps. -/
theorem wp_atom {α : Type} {a : Act} {kont : a.Res → Code α} {Q : α → KState → Prop} (hq : Quiet handler) (h : Shows b k s)
    (hact : ∀ s, Shows b k s → ∃ r s', actSem grants a s = .ok (r, s') ∧ wp (actSem grants) handler ok (kont r) Q s') :
    wp (actSem grants) handler ok (act a kont) Q s :=
  wp_act h (fun _ hs _ => hq.keeps hs) hact

/-- A poll finds the port idle. -/
theorem wp_serialIdle (hq : Quiet handler) (h : Shows b k s) :
    wp (actSem grants) handler ok serialIdle (fun idle s => idle = true ∧ Shows b k s) s := by
  refine wp_atom hq h fun s hs => ?_
  obtain ⟨v, hv, hbyte⟩ := portRead_other hs.ready.maps (show PortOk 0x3FD 1 by decide) (by decide)
  refine ⟨byte v 0, s, ?_, ?_, hs⟩
  · rw [actSem]
    simp only [serialPort, hv]
  · rw [hbyte]
    exact decide_eq_true hs.ready.idle

/-- So the loop ends at once. -/
theorem wp_waitIdle (hq : Quiet handler) (hpolls : 0 < polls) (h : Shows b k s) :
    wp (actSem grants) handler ok (waitIdle polls) (fun _ s => Shows b k s) s := by
  obtain ⟨n, rfl⟩ : ∃ n, polls = n + 1 := ⟨polls - 1, by omega⟩
  refine wp_bind (wp_mono ?_ (wp_serialIdle hq h))
  rintro idle s ⟨rfl, hs⟩
  exact hs

/-- An OUT to the serial port, but for its status. -/
theorem actSem_out (h : Shows b k s) {i : ℕ} (hi : i < 8) (hstatus : i ≠ 5) (data : Byte) :
    ∃ s', actSem grants (.outByte (0x3F8 + i) data) s = .ok ((), s') ∧
      Shows b (if i = 0 then { k with out := k.out ++ [data] } else k) s' := by
  have hok : PortOk (0x3F8 + i) 1 := ⟨.inl rfl, by omega⟩
  have hrun := portWrite_console h.ready.maps hok (data.setWidth 32)
  have hbyte : byte (data.setWidth 32) 0 = data := by rw [byte_setWidth, if_pos rfl]
  have hstay : ¬(0x3F8 + i ≤ 0x3FD ∧ 0x3FD < 0x3F8 + i + 1) := by omega
  rw [if_neg fun h => h.2.2 rfl, hbyte] at hrun
  simp only [actSem, hrun]
  refine ⟨_, rfl, ?_⟩
  have hidle : (if 0x3F8 + i ≤ 0x3FD ∧ 0x3FD < 0x3F8 + i + 1 then byte (data.setWidth 32) (0x3FD - (0x3F8 + i))
      else s.ports.space 0x3FD) &&& 0x20 ≠ 0 := by
    rw [if_neg hstay]
    exact h.ready.idle
  by_cases h0 : i = 0
  · subst h0
    exact ⟨⟨h.ready.maps, hidle⟩, congrArg (· ++ [data]) h.out, h.brk, h.top, h.tiles, h.handlers⟩
  · rw [if_neg h0]
    refine ⟨⟨h.ready.maps, hidle⟩, ?_, h.brk, h.top, h.tiles, h.handlers⟩
    dsimp only
    rw [if_neg fun hp => h0 (by omega)]
    exact h.out

theorem wp_out {α : Type} {c : Unit → Code α} {Q : α → KState → Prop} (hq : Quiet handler) (h : Shows b k s) {i : ℕ}
    (hi : i < 8) (hstatus : i ≠ 5) (data : Byte)
    (hkont : ∀ s, Shows b (if i = 0 then { k with out := k.out ++ [data] } else k) s →
      wp (actSem grants) handler ok (c ()) Q s) :
    wp (actSem grants) handler ok (step (.outByte (serialPort + i) data) >>= c) Q s :=
  wp_atom hq h fun s hs => by
    obtain ⟨s', hrun, hs'⟩ := actSem_out hs hi hstatus data
    exact ⟨(), s', hrun, hkont s' hs'⟩

/-- **`init_serial`** puts out one byte: the port has no divisor latch. -/
theorem wp_initSerial (hq : Quiet handler) (h : Shows b k s) :
    wp (actSem grants) handler ok initSerial (fun _ s => Shows b { k with out := k.out ++ [0x01] } s) s := by
  refine wp_out hq h (i := 1) (by decide) (by decide) 0x00 fun s hs => ?_
  refine wp_out hq hs (i := 3) (by decide) (by decide) 0x80 fun s hs => ?_
  refine wp_out hq hs (i := 0) (by decide) (by decide) 0x01 fun s hs => ?_
  refine wp_out hq hs (i := 1) (by decide) (by decide) 0x00 fun s hs => ?_
  refine wp_out hq hs (i := 3) (by decide) (by decide) 0x03 fun s hs => ?_
  refine wp_out hq hs (i := 2) (by decide) (by decide) 0xC7 fun s hs => ?_
  exact wp_out (c := ret) hq hs (i := 4) (by decide) (by decide) 0x0B fun s hs => hs

theorem wp_serialPrintc (hq : Quiet handler) (hpolls : 0 < polls) (h : Shows b k s) (ch : Byte) :
    wp (actSem grants) handler ok (serialPrintc polls ch) (fun _ s => Shows b { k with out := k.out ++ [ch] } s) s := by
  refine wp_bind (wp_mono (fun _ s hs => ?_) (wp_waitIdle hq hpolls h))
  exact wp_out (c := ret) hq hs (i := 0) (by decide) (by decide) ch fun s hs => hs

/-- **A buffer is put out**, whatever comes between its bytes. -/
theorem wp_printBuf (hq : Quiet handler) (hpolls : 0 < polls) (h : Shows b k s) (buf : ℕ → Byte) (n : ℕ) :
    wp (actSem grants) handler ok (printBuf polls buf n)
      (fun _ s => Shows b { k with out := k.out ++ (List.range n).map buf } s) s := by
  induction n with
  | zero => simpa [printBuf, upto, wp] using h
  | succ n ih =>
    refine wp_bind (wp_mono (fun _ s hs => ?_) ih)
    refine wp_mono (fun _ s hs' => ?_) (wp_serialPrintc hq hpolls hs _)
    rwa [List.range_succ, List.map_append, ← List.append_assoc]

theorem wp_printk (hq : Quiet handler) (hpolls : 0 < polls) (h : Shows b k s) (text : List Byte) :
    wp (actSem grants) handler ok (printk polls text) (fun _ s => Shows b { k with out := k.out ++ text } s) s := by
  have htext : (List.range text.length).map (fun i => text.getD i 0) = text := by
    refine List.ext_getElem (by simp) fun i hi _ => ?_
    simp_all
  have hrun : wp (actSem grants) handler ok (printBuf polls (fun i => text.getD i 0) text.length) _ s := wp_printBuf hq hpolls h _ _
  rwa [htext] at hrun

/-- **`add_irq_handle`**, where there is room. -/
theorem wp_addIrqHandle {α : Type} {c : Unit → Code α} {Q : α → KState → Prop} (hq : Quiet handler)
    (h : Shows b k s) {irq : ℤ} (hlow : 0 ≤ irq) (hhigh : irq < 16) (hroom : k.handlers.length < 32) (func : Word)
    (hkont : ∀ s, Shows b { k with handlers := k.handlers ++ [(irq, func)] } s →
      wp (actSem grants) handler ok (c ()) Q s) :
    wp (actSem grants) handler ok (step (.addIrqHandle irq func) >>= c) Q s :=
  wp_atom hq h fun s hs => by
    obtain ⟨table, hadd, htable⟩ := addIrqHandle_ok hs.handlers hroom hlow hhigh func
    refine ⟨(), { s with table }, by rw [actSem, hadd], hkont _ ?_⟩
    exact ⟨⟨hs.ready.maps, hs.ready.idle⟩, hs.out, hs.brk, hs.top, hs.tiles, htable⟩

/-- **`init_ide`** registers its two handlers. -/
theorem wp_initIde (hq : Quiet handler) (h : Shows b k s) (hroom : k.handlers.length < 31) (ideWriteback ideIntr : Word) :
    wp (actSem grants) handler ok (initIde ideWriteback ideIntr)
      (fun _ s => Shows b { k with handlers := k.handlers ++ [(0, ideWriteback)] ++ [(14, ideIntr)] } s) s := by
  refine wp_addIrqHandle hq h (by decide) (by decide) (by omega) ideWriteback fun s hs => ?_
  refine wp_addIrqHandle (c := ret) hq hs (by decide) (by decide) ?_ ideIntr fun s hs => hs
  rw [List.length_append, List.length_singleton]
  omega

/-- **`mm_brk`** asks for what is new. -/
theorem mmBrk_shows (hroomy : Roomy grants b limit) (h : Shows b k s) {newBrk : Word} (h0 : newBrk ≠ 0)
    (hlimit : newBrk ≤ limit) : ∃ heap, mmBrk grants newBrk s.heap = .ok (newBrk, heap) ∧
      Shows b { k with brk := newBrk, top := if newBrk ≤ k.top then k.top else newBrk } { s with heap } := by
  have hready : ∀ heap, Ready { s with heap } := fun _ => ⟨h.ready.maps, h.ready.idle⟩
  unfold mmBrk
  rw [if_pos h0]
  by_cases hmax : newBrk > s.heap.maxBrk
  · have hgrant := hroomy _ _ _ h.tiles hmax hlimit
    have hnew : ¬ newBrk ≤ k.top := fun hle => BitVec.not_lt.mpr (h.top ▸ hle) hmax
    rw [if_pos hmax, mmMalloc, if_pos hgrant]
    refine ⟨_, rfl, hready _, h.out, rfl, ?_, h.tiles.concat hmax, h.handlers⟩
    rw [if_neg hnew]
  · have hold : newBrk ≤ k.top := h.top ▸ BitVec.not_lt.mp hmax
    rw [if_neg hmax]
    refine ⟨_, rfl, hready _, h.out, rfl, ?_, h.tiles, h.handlers⟩
    rw [if_pos hold]
    exact h.top

theorem wp_sysWrite (hq : Quiet handler) (hpolls : 0 < polls) (h : Shows b k s) (tf : TrapFrame) :
    wp (actSem grants) handler ok (sysWrite polls mem tf) (fun r s =>
      if tf.ebx = 1 ∨ tf.ebx = 2 then r = { tf with eax := tf.edx } ∧
        Shows b { k with out := k.out ++ bufBytes mem tf.ecx tf.edx.toInt.toNat } s
      else r = tf ∧ Shows b k s) s := by
  have hfd : tf.ebx.toInt = 1 ∨ tf.ebx.toInt = 2 ↔ tf.ebx = 1 ∨ tf.ebx = 2 := by
    rw [← BitVec.toInt_inj, ← BitVec.toInt_inj]
    rfl
  unfold sysWrite
  simp only [hfd]
  by_cases hstd : tf.ebx = 1 ∨ tf.ebx = 2
  · simp only [if_pos hstd]
    exact wp_bind (wp_mono (fun _ s hs => ⟨rfl, hs⟩) (wp_printBuf hq hpolls h (byteOf mem tf.ecx) _))
  · simp only [if_neg hstd]
    exact ⟨rfl, h⟩

/-- **A system call** is the abstract one, under every schedule of the handlers. -/
theorem wp_doSyscall (hq : Quiet handler) (hpolls : 0 < polls) (hroomy : Roomy grants b limit) (h : Shows b k s)
    {tf tf' : TrapFrame} {k' : Spec} (hcall : k.call limit mem tf = some (tf', k')) :
    wp (actSem grants) handler ok (doSyscall polls mem tf) (fun r s => r = tf' ∧ Shows b k' s) s := by
  unfold Spec.call at hcall
  unfold doSyscall
  by_cases h0 : tf.eax = 0
  · rw [if_pos h0] at hcall ⊢
    split_ifs at hcall with hfits
    obtain ⟨rfl, rfl⟩ := Prod.mk.inj (Option.some.inj hcall)
    exact wp_addIrqHandle hq h hfits.1 hfits.2.1 hfits.2.2 _ fun s hs => ⟨rfl, hs⟩
  rw [if_neg h0] at hcall ⊢
  by_cases h45 : tf.eax = 45
  · rw [if_pos h45] at hcall ⊢
    refine wp_atom hq h fun s hs => ?_
    by_cases hzero : tf.ebx = 0
    · rw [if_pos hzero] at hcall
      obtain ⟨rfl, rfl⟩ := Prod.mk.inj (Option.some.inj hcall)
      refine ⟨s.heap.curBrk, s, ?_, ?_, hs⟩
      · rw [actSem, mmBrk, if_neg (not_not.mpr hzero)]
        rfl
      · rw [hs.brk]
    · rw [if_neg hzero] at hcall
      by_cases hlimit : tf.ebx ≤ limit
      · rw [if_pos hlimit] at hcall
        obtain ⟨rfl, rfl⟩ := Prod.mk.inj (Option.some.inj hcall)
        obtain ⟨heap, hrun, hs'⟩ := mmBrk_shows hroomy hs hzero hlimit
        exact ⟨tf.ebx, _, by rw [actSem, hrun], rfl, hs'⟩
      · rw [if_neg hlimit] at hcall
        cases hcall
  rw [if_neg h45] at hcall ⊢
  by_cases h54 : tf.eax = 54
  · rw [if_pos h54] at hcall ⊢
    by_cases hreq : tf.ecx = 0x5401
    · rw [if_pos hreq] at hcall
      obtain ⟨rfl, rfl⟩ := Prod.mk.inj (Option.some.inj hcall)
      rw [fsIoctl, if_pos hreq]
      exact ⟨rfl, h⟩
    · rw [if_neg hreq] at hcall
      cases hcall
  rw [if_neg h54] at hcall ⊢
  by_cases h4 : tf.eax = 4
  · rw [if_pos h4] at hcall ⊢
    refine wp_mono (fun r s hr => ?_) (wp_sysWrite hq hpolls h tf)
    by_cases hstd : tf.ebx = 1 ∨ tf.ebx = 2
    · rw [if_pos hstd] at hcall hr
      obtain ⟨rfl, rfl⟩ := Prod.mk.inj (Option.some.inj hcall)
      exact hr
    · rw [if_neg hstd] at hcall hr
      obtain ⟨rfl, rfl⟩ := Prod.mk.inj (Option.some.inj hcall)
      exact hr
  · rw [if_neg h4] at hcall
    cases hcall

theorem calls_cons {tf : TrapFrame} {tfs tfs' : List TrapFrame} {k' : Spec}
    (h : k.calls limit mem (tf :: tfs) = some (tfs', k')) : ∃ tf' k₁ rest,
      k.call limit mem tf = some (tf', k₁) ∧ k₁.calls limit mem tfs = some (rest, k') ∧ tfs' = tf' :: rest := by
  obtain ⟨⟨tf', k₁⟩, hcall, hbind⟩ := Option.bind_eq_some_iff.mp h
  obtain ⟨⟨rest, k₂⟩, hrest, hlast⟩ := Option.bind_eq_some_iff.mp hbind
  obtain ⟨rfl, rfl⟩ := Prod.mk.inj (Option.some.inj hlast)
  exact ⟨tf', k₁, rest, hcall, hrest, rfl⟩

theorem wp_serve (hq : Quiet handler) (hpolls : 0 < polls) (hroomy : Roomy grants b limit)
    {tfs tfs' : List TrapFrame} {k' : Spec} (h : Shows b k s) (hcalls : k.calls limit mem tfs = some (tfs', k')) :
    wp (actSem grants) handler ok (serve polls mem tfs) (fun r s => r = tfs' ∧ Shows b k' s) s := by
  induction tfs generalizing k tfs' s with
  | nil =>
    obtain ⟨rfl, rfl⟩ := Prod.mk.inj (Option.some.inj hcalls)
    exact ⟨rfl, h⟩
  | cons tf tfs ih =>
    obtain ⟨tf', k₁, rest, hcall, hrest, rfl⟩ := calls_cons hcalls
    refine wp_bind (wp_mono ?_ (wp_doSyscall hq hpolls hroomy h hcall))
    rintro r s ⟨rfl, hs⟩
    refine wp_bind (wp_mono ?_ (ih hs hrest))
    rintro r s ⟨rfl, hs⟩
    exact ⟨rfl, hs⟩

end Refines

/-! ### The heap -/

/-- The address is in the region. -/
def Inside (x : Word) (r : Word × Word) : Bool := decide (r.1.toNat ≤ x.toNat ∧ x.toNat < r.1.toNat + r.2.toNat)

section Tiles

variable {b top : Word} {l : List (Word × Word)}

theorem Tiles.le (h : Tiles b l top) : b.toNat ≤ top.toNat := by
  induction h with
  | nil => exact le_refl _
  | concat _ hlt ih => exact ih.trans (BitVec.lt_def.mp hlt).le

/-- **Every address** from the first break up to the highest is in one region, and no other is. -/
theorem Tiles.once (h : Tiles b l top) (x : Word) :
    l.countP (Inside x) = if b.toNat ≤ x.toNat ∧ x.toNat < top.toNat then 1 else 0 := by
  induction h with
  | nil => rw [List.countP_nil, if_neg (by omega)]
  | concat hl hlt ih =>
    have hle := hl.le
    have hlt' := BitVec.lt_def.mp hlt
    rw [List.countP_append, ih, List.countP_singleton, Inside, BitVec.toNat_sub_of_le (BitVec.le_of_lt hlt)]
    simp only [decide_eq_true_eq]
    split_ifs <;> omega

end Tiles

/-- The breaks that the calls ask for. -/
def breaks (tfs : List TrapFrame) : List Word := (tfs.filter fun tf => tf.eax = 45 ∧ tf.ebx ≠ 0).map TrapFrame.ebx

/-- The break and the highest one, after the breaks `l` from `b` on. -/
structure Reaches (b : Word) (l : List Word) (brk top : Word) : Prop where
  brk : brk = l.getLastD b
  top : ∀ x : Word, x < top ↔ x < b ∨ ∃ n ∈ l, x < n

section Calls

variable {limit b : Word} {mem : Word → Byte} {k k' : Spec} {tf tf' : TrapFrame} {tfs tfs' : List TrapFrame}

/-- A system call changes nothing in the trap frame but `eax`. -/
theorem call_frame (hcall : k.call limit mem tf = some (tf', k')) : tf' = { tf with eax := tf'.eax } := by
  unfold Spec.call at hcall
  split_ifs at hcall
  all_goals
    obtain ⟨rfl, rfl⟩ := Prod.mk.inj (Option.some.inj hcall)
    rfl

theorem calls_frame (hcalls : k.calls limit mem tfs = some (tfs', k')) :
    List.Forall₂ (fun tf tf' => tf' = { tf with eax := tf'.eax }) tfs tfs' := by
  induction tfs generalizing k tfs' with
  | nil =>
    obtain ⟨rfl, rfl⟩ := Prod.mk.inj (Option.some.inj hcalls)
    exact .nil
  | cons tf tfs ih =>
    obtain ⟨tf', k₁, rest, hcall, hrest, rfl⟩ := calls_cons hcalls
    exact .cons (call_frame hcall) (ih hrest)

theorem breaks_cons (tf : TrapFrame) (tfs : List TrapFrame) :
    breaks (tf :: tfs) = if tf.eax = 45 ∧ tf.ebx ≠ 0 then tf.ebx :: breaks tfs else breaks tfs := by
  unfold breaks
  rw [List.filter_cons]
  split_ifs <;> simp_all

/-- A system call moves the break where it is asked to. -/
theorem call_reaches {l : List Word} (h : Reaches b l k.brk k.top) (hcall : k.call limit mem tf = some (tf', k')) :
    Reaches b (if tf.eax = 45 ∧ tf.ebx ≠ 0 then l ++ [tf.ebx] else l) k'.brk k'.top := by
  unfold Spec.call at hcall
  by_cases hbrk : tf.eax = 45 ∧ tf.ebx ≠ 0
  · rw [hbrk.1, if_neg (by decide), if_pos rfl, if_neg hbrk.2] at hcall
    rw [if_pos hbrk]
    by_cases hlimit : tf.ebx ≤ limit
    · rw [if_pos hlimit] at hcall
      obtain ⟨-, rfl⟩ := Prod.mk.inj (Option.some.inj hcall)
      refine ⟨List.getLastD_concat.symm, fun x => ?_⟩
      have hold := h.top x
      simp only [List.mem_append, List.mem_singleton, or_and_right, exists_or, exists_eq_left, ← or_assoc, ← hold]
      simp only [BitVec.lt_def, BitVec.le_def]
      split_ifs <;> omega
    · rw [if_neg hlimit] at hcall
      cases hcall
  · rw [if_neg hbrk]
    have hsame : k'.brk = k.brk ∧ k'.top = k.top := by
      split_ifs at hcall
      all_goals
        first
        | exact absurd ⟨‹_›, ‹_›⟩ hbrk
        | obtain ⟨-, rfl⟩ := Prod.mk.inj (Option.some.inj hcall)
          exact ⟨rfl, rfl⟩
    rwa [hsame.1, hsame.2]

theorem calls_reach {l : List Word} (h : Reaches b l k.brk k.top) (hcalls : k.calls limit mem tfs = some (tfs', k')) :
    Reaches b (l ++ breaks tfs) k'.brk k'.top := by
  induction tfs generalizing k tfs' l with
  | nil =>
    obtain ⟨-, rfl⟩ := Prod.mk.inj (Option.some.inj hcalls)
    rwa [breaks, List.filter_nil, List.map_nil, List.append_nil]
  | cons tf tfs ih =>
    obtain ⟨tf', k₁, rest, hcall, hrest, rfl⟩ := calls_cons hcalls
    have hreach := ih (call_reaches h hcall) hrest
    rw [breaks_cons]
    split_ifs at hreach ⊢
    · rwa [List.append_assoc] at hreach
    · exact hreach

end Calls

/-! ### From the start -/

/-- The boot of the kernel, as far as it touches what is modelled here, and then system calls.
`hello` is what the welcome message puts out. -/
def boot (polls : ℕ) (ideWriteback ideIntr : Word) (hello : List Byte) (mem : Word → Byte) (tfs : List TrapFrame) :
    Code (List TrapFrame) := do
  initSerial
  initIde ideWriteback ideIntr
  printk polls hello
  serve polls mem tfs

/-- After `init_device`, with the break where `loader` puts it. -/
def start (b : Word) : KState := ⟨Console.initial, ⟨b, b, []⟩, initTable⟩

/-- The abstract kernel begins with the byte that `init_serial` puts out, the message and the
handlers of the disk. -/
def Spec.start (b ideWriteback ideIntr : Word) (hello : List Byte) : Spec :=
  ⟨[0x01] ++ hello, b, b, [(0, ideWriteback), (14, ideIntr)]⟩

theorem start_shows (b : Word) : Shows b ⟨[], b, b, []⟩ (start b) where
  ready := ⟨rfl, show Console.initial.space 0x3FD &&& 0x20 ≠ 0 by decide⟩
  out := rfl
  brk := rfl
  top := rfl
  tiles := .nil
  handlers := registered_init

section Boot

variable {grants : List (Word × Word) → Word × Word → Bool} {handler : KState → Except Halt KState} {polls : ℕ}
  {mem : Word → Byte} {b limit ideWriteback ideIntr : Word} {hello : List Byte} {tfs tfs' : List TrapFrame} {k : Spec}

/-- The kernel ends where the abstract one does. -/
theorem boot_shows (hq : Quiet handler) (hpolls : 0 < polls) (hroomy : Roomy grants b limit)
    (hcalls : (Spec.start b ideWriteback ideIntr hello).calls limit mem tfs = some (tfs', k)) (t : ℕ → Bool) :
    ∃ t' s, preempt (actSem grants) handler (boot polls ideWriteback ideIntr hello mem tfs) t (start b) =
      .ok (tfs', t', s) ∧ Shows b k s := by
  have hwp : wp (actSem grants) handler (fun _ _ => True) (boot polls ideWriteback ideIntr hello mem tfs)
      (fun r s => r = tfs' ∧ Shows b k s) (start b) := by
    refine wp_bind (wp_mono (fun _ s hs => ?_) (wp_initSerial hq (start_shows b)))
    refine wp_bind (wp_mono (fun _ s hs => ?_) (wp_initIde hq hs (Nat.succ_pos 30) ideWriteback ideIntr))
    refine wp_bind (wp_mono (fun _ s hs => ?_) (wp_printk hq hpolls hs hello))
    exact wp_serve hq hpolls hroomy hs hcalls
  obtain ⟨_, t', s, hrun, rfl, hshows⟩ := preempt_of_wp hwp (Harmless.of_ok (fun _ _ => trivial) _ t (start b))
  exact ⟨t', s, hrun, hshows⟩

/-- **The heap**: after any system calls the break is the last one that was requested, and every address
from the first break up to the highest requested one has been asked of `mm_malloc` once, and nothing else
has. -/
theorem boot_heap (hq : Quiet handler) (hpolls : 0 < polls) (hroomy : Roomy grants b limit)
    (hcalls : (Spec.start b ideWriteback ideIntr hello).calls limit mem tfs = some (tfs', k)) (t : ℕ → Bool) :
    ∃ t' s, preempt (actSem grants) handler (boot polls ideWriteback ideIntr hello mem tfs) t (start b) =
        .ok (tfs', t', s) ∧
      s.heap.curBrk = (breaks tfs).getLastD b ∧
      ∀ x, s.heap.mallocs.countP (Inside x) = if b ≤ x ∧ ∃ n ∈ breaks tfs, x < n then 1 else 0 := by
  obtain ⟨t', s, hrun, hshows⟩ := boot_shows hq hpolls hroomy hcalls t
  have hreach := calls_reach (b := b) (l := []) ⟨rfl, by simp [Spec.start]⟩ hcalls
  rw [List.nil_append] at hreach
  refine ⟨t', s, hrun, hshows.brk.trans hreach.brk, fun x => ?_⟩
  rw [hshows.tiles.once, hshows.top]
  refine if_congr (and_congr_right fun hle => ?_) rfl rfl
  exact (hreach.top x).trans (or_iff_right (BitVec.not_lt.mpr hle))

end Boot

/-- The handler that reads the scan code at port 0x60. -/
def readKey (s : KState) : Except Halt KState :=
  match portRead s.ports 0x60 1 with
  | .ok (_, ports) => .ok { s with ports }
  | .error f => .error (.device f)

theorem readKey_quiet : Quiet readKey := by
  intro s hs
  obtain ⟨v, hrun, -⟩ := portRead_key hs.maps
  rw [readKey, hrun]
  exact ⟨_, rfl, ⟨hs.maps, hs.idle⟩, rfl, rfl, rfl⟩

/-- Memory for as many bytes as these. -/
def bounded (room : ℕ) (served : List (Word × Word)) (asked : Word × Word) : Bool :=
  decide ((served.map fun r => r.2.toNat).sum + asked.2.toNat ≤ room)

theorem bounded_roomy {b limit : Word} {room : ℕ} (h : limit.toNat ≤ b.toNat + room) :
    Roomy (bounded room) b limit := by
  have hsum : ∀ {l : List (Word × Word)} {top : Word}, Tiles b l top →
      b.toNat + (l.map fun r => r.2.toNat).sum = top.toNat := by
    intro l top htiles
    induction htiles with
    | nil => rfl
    | concat _ hlt ih =>
      have hsub := BitVec.toNat_sub_of_le (BitVec.le_of_lt hlt)
      have hlt' := BitVec.lt_def.mp hlt
      rw [List.map_append, List.sum_append, List.map_singleton, List.sum_singleton, hsub]
      omega
  intro l top newBrk htiles hlt hle
  have hl := hsum htiles
  have hsub := BitVec.toNat_sub_of_le (BitVec.le_of_lt hlt)
  have hlt' := BitVec.lt_def.mp hlt
  have hle' := BitVec.le_def.mp hle
  rw [bounded, hsub]
  exact decide_eq_true (by omega)

/-- `write(1, buf, 2)`, `add_irq_handle(1, f)`, and `brk`. -/
def writeFrame : TrapFrame := ⟨0, 0, 0, 0, 1, 2, 0x1000, 4, 0x80, 0, 0, 8, 0x202⟩

def addFrame : TrapFrame := ⟨0, 0, 0, 0, 1, 0, 0x8048000, 0, 0x80, 0, 0, 8, 0x202⟩

def brkFrame (newBrk : Word) : TrapFrame := ⟨0, 0, 0, 0, newBrk, 0, 0, 45, 0x80, 0, 0, 8, 0x202⟩

/-- The break goes up, down and up again. -/
theorem boot_heap_brk : ∃ t' s, preempt (actSem (bounded 0x10000)) readKey
      (boot 1 0xc0100000 0xc0100100 [0x48, 0x69] (fun _ => 0x41) [brkFrame 0x6000, brkFrame 0x5000, brkFrame 0x7000])
      (fun _ => true) (start 0x4000) =
        .ok ([{ brkFrame 0x6000 with eax := 0x6000 }, { brkFrame 0x5000 with eax := 0x5000 },
          { brkFrame 0x7000 with eax := 0x7000 }], t', s) ∧
    s.heap.curBrk = 0x7000 ∧
    ∀ x, s.heap.mallocs.countP (Inside x) =
      if 0x4000 ≤ x ∧ ∃ n ∈ breaks [brkFrame 0x6000, brkFrame 0x5000, brkFrame 0x7000], x < n then 1 else 0 := by
  obtain ⟨t', s, hrun, hbrk, hall⟩ := boot_heap readKey_quiet Nat.one_pos
    (show Roomy (bounded 0x10000) 0x4000 0x14000 from bounded_roomy (by decide))
    (show (Spec.start 0x4000 0xc0100000 0xc0100100 [0x48, 0x69]).calls 0x14000 (fun _ => 0x41)
      [brkFrame 0x6000, brkFrame 0x5000, brkFrame 0x7000] = some _ from rfl) fun _ => true
  exact ⟨t', s, hrun, hbrk, hall⟩

end Syscall

end Nemu
