/-
# The keyboard and the serial port

`keyboard.c`, `serial.c` and `timer.c` over the port space and the interrupt
controller. A scan code of the host is accepted when the one before it has been
read: it is put at port 0x60 and line 1 is raised. What the guest writes to port
0x3F8, byte by byte, is put on the standard output.

The processor takes an interrupt in two steps, `i8259_query_intr` and
`i8259_ack_intr`, and the timer is a signal that may fall between them: then line
0 is acknowledged, and the other line is told of twice. Where this does not happen
to line 1, the guest that reads port 0x60 only to answer an interrupt of line 1,
once, gets every scan code that is accepted, once and in order, whatever the order
of host events, other interrupts and port accesses.

The maps are those of these two devices only: the ports of the other devices are
apart from them. What another device does to the controller is an event.

Key definitions: `Board`, `keyboardIntr`, `State`, `Event`, `step`, `Run`, `Shaken`.
Key theorems: `step_ready`, `Run.handshake`, `Run.goes_on`.
-/
import Nemu.Device.I8259
import Nemu.Device.PortIo

namespace Nemu

namespace Console

open Bytes I8259

/-- `newkey`, the standard output, and the interrupt controller. -/
structure Board where
  newkey : Bool
  stdout : List Byte
  pic : Pic

abbrev Ports := PortIo Board

/-- `serial_io_handler`. -/
def serialIoHandler (addr len : ℕ) (isWrite : Bool) (space : ℕ → Byte) (b : Board) :
    Except Fault ((ℕ → Byte) × Board) :=
  if isWrite then
    if len = 1 then
      if addr = 0x3F8 then .ok (space, { b with stdout := b.stdout ++ [space 0x3F8] }) else .ok (space, b)
    else .error .assert
  else .ok (space, b)

/-- `i8042_io_handler`. -/
def i8042IoHandler (_addr _len : ℕ) (isWrite : Bool) (space : ℕ → Byte) (b : Board) :
    Except Fault ((ℕ → Byte) × Board) :=
  .ok (space, if isWrite then b else { b with newkey := false })

def consoleMaps : List (PioMap Board) := [⟨0x3F8, 0x3FF, serialIoHandler⟩, ⟨0x60, 0x60, i8042IoHandler⟩]

/-- `init_serial`. -/
def initSerial (s : Ports) : Except Fault Ports := do
  let s ← addPioMap s 0x3F8 8 serialIoHandler
  return { s with space := Function.update s.space 0x3FD 0x20 }

/-- `init_i8042`. -/
def initI8042 (s : Ports) : Except Fault Ports := do
  let s ← addPioMap s 0x60 1 i8042IoHandler
  return { s with dev := { s.dev with newkey := false } }

/-- After `init_device`. -/
def initial : Ports := ⟨Function.update (fun _ => 0) 0x3FD 0x20, consoleMaps, ⟨false, [], I8259.init⟩⟩

theorem initDevice_eq : (initSerial ⟨fun _ => 0, [], ⟨false, [], I8259.init⟩⟩ >>= initI8042) = .ok initial := rfl

/-- The controller acts; its assertions may fail. -/
def withPic (f : Pic → Option Pic) (s : Ports) : Except Fault Ports :=
  match f s.dev.pic with
  | some pic => .ok { s with dev := { s.dev with pic } }
  | none => .error .assert

/-- `keyboard_intr`; `running` says that `nemu_state` is `RUNNING`. -/
def keyboardIntr (running : Bool) (scancode : Byte) (s : Ports) : Except Fault Ports :=
  if running = true ∧ s.dev.newkey = false then do
    let s ← withPic (I8259.raiseIntr 1) { s with space := Function.update s.space 0x60 scancode }
    return { s with dev := { s.dev with newkey := true } }
  else .ok s

/-- `timer_intr`. -/
def timerIntr (running : Bool) (s : Ports) : Except Fault Ports :=
  if running then withPic (I8259.raiseIntr 0) s else .ok s

/-- The devices, and `intr_no` while the processor is between `i8259_query_intr` and
`i8259_ack_intr`. -/
structure State where
  ports : Ports
  intrNo : Option Byte

/-- What happens: a key or a tick of the host, another device that raises its line, an IN
or an OUT of the guest, and the two calls with which the processor takes an interrupt. -/
inductive Event where
  | key (running : Bool) (scancode : Byte)
  | timer (running : Bool)
  | raise (n : Line)
  | input (addr len : ℕ)
  | output (addr len : ℕ) (data : Word)
  | query
  | ack

/-- An event, with the value that an IN reads. -/
def step : Event → State → Except Fault (Word × State)
  | .key running scancode, s => do
    let ports ← keyboardIntr running scancode s.ports
    return (0, { s with ports })
  | .timer running, s => do
    let ports ← timerIntr running s.ports
    return (0, { s with ports })
  | .raise n, s => do
    let ports ← withPic (I8259.raiseIntr n.val) s.ports
    return (0, { s with ports })
  | .input addr len, s => do
    let (v, ports) ← portRead s.ports addr len
    return (v, { s with ports })
  | .output addr len data, s => do
    let ports ← portWrite s.ports addr len data
    return (0, { s with ports })
  | .query, s => .ok (0, { s with intrNo := some (queryIntr s.ports.dev.pic) })
  | .ack, s => do
    let ports ← withPic ackIntr s.ports
    return (0, ⟨ports, none⟩)

/-! ### Runs -/

/-- The scan codes that were accepted, those that were read from port 0x60, how often an
interrupt of line 1 was taken, the ticks that fell between the two calls for line 1, and the
bytes written to port 0x3F8. -/
structure History where
  accepted : List Byte
  read : List Byte
  told : ℕ
  slips : ℕ
  written : List Byte

/-- The history after an event in state `s`, where `v` was read. -/
def History.after (h : History) (s : State) (v : Word) : Event → History
  | .key running scancode =>
    if running = true ∧ s.ports.dev.newkey = false then { h with accepted := h.accepted ++ [scancode] } else h
  | .timer running => if running = true ∧ s.intrNo = some 33 then { h with slips := h.slips + 1 } else h
  | .input addr len => if addr = 0x60 ∧ len = 1 then { h with read := h.read ++ [byte v 0] } else h
  | .output addr len data =>
    if addr = 0x3F8 ∧ len = 1 then { h with written := h.written ++ [byte data 0] } else h
  | .ack => if s.intrNo = some 33 then { h with told := h.told + 1 } else h
  | _ => h

/-- Between the two calls only the timer, a signal, can come. The processor takes an interrupt when
it is asked to; no other device is on lines 1 and 2; and the guest leaves port 0x60 as it is, and
reads it only to answer an interrupt of line 1. -/
def Event.Legal (h : History) (s : State) : Event → Prop
  | .key .. => s.intrNo = none
  | .timer _ => True
  | .raise n => s.intrNo = none ∧ n ≠ 1 ∧ n ≠ 2
  | .input addr len => s.intrNo = none ∧ (addr = 0x60 ∧ len = 1 → h.read.length < h.told)
  | .output addr len _ => s.intrNo = none ∧ ¬(addr ≤ 0x60 ∧ 0x60 < addr + len)
  | .query => s.intrNo = none ∧ s.ports.dev.pic.INTR = true
  | .ack => s.intrNo ≠ none

/-- The states that are reached. -/
inductive Run : History → State → Prop where
  | start : Run ⟨[], [], 0, 0, []⟩ ⟨initial, none⟩
  | event {h : History} {s s' : State} {e : Event} {v : Word} :
      Run h s → e.Legal h s → step e s = .ok (v, s') → Run (h.after s v e) s'

/-! ### What the events do -/

section Events

variable {s : Ports}

/-- An access goes to the device that has all of its ports. -/
theorem pioCallback_console (hm : s.maps = consoleMaps) (addr len : ℕ) (isWrite : Bool) :
    pioCallback s addr len isWrite =
      if 0x3F8 ≤ addr ∧ addr + len - 1 ≤ 0x3FF then
        (serialIoHandler addr len isWrite s.space s.dev).map fun r => { s with space := r.1, dev := r.2 }
      else if 0x60 ≤ addr ∧ addr + len - 1 ≤ 0x60 then
        .ok { s with dev := if isWrite then s.dev else { s.dev with newkey := false } }
      else .ok s := by
  unfold pioCallback
  rw [hm]
  unfold consoleMaps
  simp only [List.find?_cons, List.find?_nil]
  by_cases hserial : 0x3F8 ≤ addr ∧ addr + len - 1 ≤ 0x3FF
  · rw [if_pos hserial, decide_eq_true hserial]
    dsimp only
    cases serialIoHandler addr len isWrite s.space s.dev <;> rfl
  · rw [if_neg hserial, decide_eq_false hserial]
    by_cases hkey : 0x60 ≤ addr ∧ addr + len - 1 ≤ 0x60
    · rw [if_pos hkey, decide_eq_true hkey]
      rfl
    · rw [if_neg hkey, decide_eq_false hkey]

/-- **An IN** at port 0x60 reads the scan code, and there is room for the next one. -/
theorem portRead_key (hm : s.maps = consoleMaps) :
    ∃ v, portRead s 0x60 1 = .ok (v, { s with dev := { s.dev with newkey := false } }) ∧ byte v 0 = s.space 0x60 := by
  rw [portRead, if_pos (by decide), pioCallback_console hm, if_neg (by decide), if_pos (by decide)]
  refine ⟨_, rfl, ?_⟩
  rw [byte_and_low _ (by decide), if_pos (by decide), byte_word _ _ _ (by decide), if_pos (by decide)]

/-- Every other IN changes nothing. -/
theorem portRead_other (hm : s.maps = consoleMaps) {addr len : ℕ} (hok : PortOk addr len)
    (hother : ¬(addr = 0x60 ∧ len = 1)) : ∃ v, portRead s addr len = .ok (v, s) ∧ byte v 0 = s.space addr := by
  have hlen : 1 ≤ len ∧ len ≤ 4 := by
    rcases hok.1 with h | h | h <;> omega
  have hcall : pioCallback s addr len false = .ok s := by
    rw [pioCallback_console hm]
    by_cases hserial : 0x3F8 ≤ addr ∧ addr + len - 1 ≤ 0x3FF
    · rw [if_pos hserial]
      rfl
    · rw [if_neg hserial, if_neg (by omega)]
  rw [portRead, if_pos hok, hcall]
  refine ⟨_, rfl, ?_⟩
  rw [byte_and_low _ hlen.2, if_pos (by omega), byte_word _ _ _ (by decide), if_pos (by decide)]
  rfl

/-- **An OUT.** It stores its bytes; one byte at port 0x3F8 is put out, and more at the serial
port fail its assertion. -/
theorem portWrite_console (hm : s.maps = consoleMaps) {addr len : ℕ} (hok : PortOk addr len) (data : Word) :
    portWrite s addr len data =
      if 0x3F8 ≤ addr ∧ addr + len - 1 ≤ 0x3FF ∧ len ≠ 1 then .error .assert
      else .ok { s with
        space := fun n => if addr ≤ n ∧ n < addr + len then byte data (n - addr) else s.space n
        dev := if addr = 0x3F8 ∧ len = 1 then { s.dev with stdout := s.dev.stdout ++ [byte data 0] } else s.dev } := by
  have hlen : 1 ≤ len := by
    rcases hok.1 with h | h | h <;> omega
  rw [portWrite, if_pos hok, pioCallback_console (by exact hm)]
  by_cases hserial : 0x3F8 ≤ addr ∧ addr + len - 1 ≤ 0x3FF
  · rw [if_pos hserial, serialIoHandler, if_pos rfl]
    by_cases h1 : len = 1
    · have hfail : ¬(0x3F8 ≤ addr ∧ addr + len - 1 ≤ 0x3FF ∧ len ≠ 1) := fun h => h.2.2 h1
      rw [if_pos h1, if_neg hfail]
      by_cases haddr : addr = 0x3F8
      · subst haddr h1
        rfl
      · rw [if_neg haddr]
        simp only [haddr, false_and, if_false]
        rfl
    · rw [if_neg h1, if_pos ⟨hserial.1, hserial.2, h1⟩]
      rfl
  · have hfail : ¬(0x3F8 ≤ addr ∧ addr + len - 1 ≤ 0x3FF ∧ len ≠ 1) := fun h => hserial ⟨h.1, h.2.1⟩
    have hput : ¬(addr = 0x3F8 ∧ len = 1) := by omega
    rw [if_neg hserial, if_neg hfail, if_neg hput]
    by_cases hkey : 0x60 ≤ addr ∧ addr + len - 1 ≤ 0x60
    · rw [if_pos hkey, if_pos rfl]
    · rw [if_neg hkey]

/-- The maps are there, and the controller is in order. -/
structure Sane (s : Ports) : Prop where
  maps : s.maps = consoleMaps
  pic : ∃ S, Consistent S s.dev.pic

theorem initial_sane : Sane initial := ⟨rfl, ∅, init_consistent⟩

/-- A line is raised, and the processor is asked. -/
theorem Sane.raise (h : Sane s) {n : Line} (hn : n ≠ 2) : ∃ pic,
    withPic (I8259.raiseIntr n.val) s = .ok { s with dev := { s.dev with pic } } ∧ (∃ S, Consistent S pic) ∧
      pic.INTR = true ∧ (n = 0 → queryIntr pic = 32) ∧
      (pic.lineBit 1 = true ↔ n = 1 ∨ s.dev.pic.lineBit 1 = true) := by
  obtain ⟨-, S, hS⟩ := h
  obtain ⟨pic, hrun, hpic, hcascade⟩ := raiseIntr_ok hS hn
  have hbefore := hS.pending 1
  have hafter := hpic.pending 1
  have h12 : (1 : Line) ≠ 2 := by decide
  have hbit : pic.lineBit n = true := ((hpic.pending n).mp (Finset.mem_insert_self n S)).2
  have hintr : pic.INTR = true := hpic.intr.mpr <| by
    by_cases h8 : n.val < 8
    · rw [Pic.lineBit, if_pos h8] at hbit
      exact ne_zero_of_bit hbit
    · exact ne_zero_of_bit (hcascade.mpr (.inr (by omega)))
  rw [Finset.mem_insert, hbefore] at hafter
  refine ⟨pic, ?_, ⟨_, hpic⟩, hintr, ?_, ?_⟩
  · rw [withPic, hrun]
  · rintro rfl
    obtain ⟨m, hm, hno⟩ := hpic.vector hintr
    rw [hm.eq_zero hbit] at hno
    exact hno
  · rw [and_iff_right h12, and_iff_right h12] at hafter
    rw [← hafter, eq_comm]

/-- The interrupt that is asked for is acknowledged. -/
theorem Sane.ack (h : Sane s) (hintr : s.dev.pic.INTR = true) : ∃ n pic,
    withPic ackIntr s = .ok { s with dev := { s.dev with pic } } ∧ (∃ S, Consistent S pic) ∧
      (queryIntr s.dev.pic = 33 ↔ n = 1) ∧ s.dev.pic.lineBit n = true ∧
      (pic.lineBit 1 = true ↔ n ≠ 1 ∧ s.dev.pic.lineBit 1 = true) := by
  obtain ⟨-, S, hS⟩ := h
  obtain ⟨n, pic, hn, hquery, hrun, hpic, -⟩ := ackIntr_ok hS hintr
  have hbefore := hS.pending 1
  have hafter := hpic.pending 1
  have h12 : (1 : Line) ≠ 2 := by decide
  rw [Finset.mem_erase, hbefore] at hafter
  have hvector : ∀ n : Line, BitVec.ofNat 8 (32 + n.val) = 33 ↔ n = 1 := by decide
  refine ⟨n, pic, ?_, ⟨_, hpic⟩, hquery ▸ hvector n, hn.2.1, ?_⟩
  · rw [withPic, hrun]
  · rw [and_iff_right h12, and_iff_right h12] at hafter
    rw [← hafter, ne_comm]

/-- An event that the emulator accepts: one byte at a time at the serial port. -/
def Event.Fits : Event → Prop
  | .input addr len => PortOk addr len
  | .output addr len _ => PortOk addr len ∧ ¬(0x3F8 ≤ addr ∧ addr + len - 1 ≤ 0x3FF ∧ len ≠ 1)
  | _ => True

end Events

/-! ### The handshake -/

/-- Every accepted scan code was read, but perhaps the last, which is at the port; and every
one was told of, but perhaps the last, whose line is raised. -/
structure Shaken (h : History) (s : Ports) : Prop where
  accepted : h.accepted = h.read ++ if s.dev.newkey then [s.space 0x60] else []
  told : h.told = h.read.length + if s.dev.newkey = true ∧ s.dev.pic.lineBit 1 = false then 1 else 0
  line : s.dev.pic.lineBit 1 = true → s.dev.newkey = true
  stdout : s.dev.stdout = h.written

section Steps

variable {h : History} {s s' : Ports}

theorem initial_shaken : Shaken ⟨[], [], 0, 0, []⟩ initial where
  accepted := rfl
  told := rfl
  line hline := absurd hline (by decide)
  stdout := rfl

/-- What does not touch the keyboard keeps everything. -/
theorem Shaken.frame (hs : Shaken h s) (hspace : s'.space 0x60 = s.space 0x60) (hkey : s'.dev.newkey = s.dev.newkey)
    (hline : s'.dev.pic.lineBit 1 = s.dev.pic.lineBit 1) (hout : s'.dev.stdout = s.dev.stdout) : Shaken h s' where
  accepted := by rw [hkey, hspace]; exact hs.accepted
  told := by rw [hkey, hline]; exact hs.told
  line := by rw [hkey, hline]; exact hs.line
  stdout := hout.trans hs.stdout

/-- **A key of the host** is accepted when the last one was read, and dropped otherwise. -/
theorem key_ok (hs : Sane s) (o : Option Byte) (running : Bool) (scancode : Byte) : ∃ s',
    keyboardIntr running scancode s = .ok s' ∧ Sane s' ∧
      (Shaken h s → Shaken (h.after ⟨s, o⟩ 0 (.key running scancode)) s') := by
  rw [keyboardIntr, History.after]
  by_cases hnew : running = true ∧ s.dev.newkey = false
  · have hs0 : Sane { s with space := Function.update s.space 0x60 scancode } := ⟨hs.maps, hs.pic⟩
    obtain ⟨pic, hrun, hpic, -, -, hline⟩ := hs0.raise (n := 1) (by decide)
    have hbit : pic.lineBit 1 = true := hline.mpr (.inl rfl)
    have hone : (1 : Line).val = 1 := rfl
    rw [hone] at hrun
    rw [if_pos hnew, if_pos hnew, hrun]
    refine ⟨_, rfl, ⟨hs.maps, hpic⟩, fun hsh => ⟨?_, ?_, fun _ => rfl, hsh.stdout⟩⟩
    · have hacc := hsh.accepted
      rw [hnew.2] at hacc
      simp [hacc]
    · have htold := hsh.told
      simpa [hnew.2, hbit] using htold
  · rw [if_neg hnew, if_neg hnew]
    exact ⟨s, rfl, hs, id⟩

/-- **Another line** is raised. -/
theorem raise_ok (hs : Sane s) {n : Line} (h1 : n ≠ 1) (h2 : n ≠ 2) : ∃ s',
    withPic (I8259.raiseIntr n.val) s = .ok s' ∧ Sane s' ∧ s'.dev.pic.INTR = true ∧
      (n = 0 → queryIntr s'.dev.pic = 32) ∧ (Shaken h s → Shaken h s') := by
  obtain ⟨pic, hrun, hpic, hintr, hquery, hline⟩ := hs.raise h2
  refine ⟨_, hrun, ⟨hs.maps, hpic⟩, hintr, hquery, fun hsh => hsh.frame rfl rfl ?_ rfl⟩
  rw [Bool.eq_iff_iff, hline, or_iff_right h1]

/-- **The processor** acknowledges an interrupt, which it takes then. -/
theorem ack_ok (hs : Sane s) (hintr : s.dev.pic.INTR = true) : ∃ s',
    withPic ackIntr s = .ok s' ∧ Sane s' ∧
      (Shaken h s → Shaken (if queryIntr s.dev.pic = 33 then { h with told := h.told + 1 } else h) s') := by
  obtain ⟨n, pic, hrun, hpic, hvector, hbit, hline⟩ := hs.ack hintr
  refine ⟨_, hrun, ⟨hs.maps, hpic⟩, fun hsh => ?_⟩
  by_cases hn : n = 1
  · subst hn
    have hafter : pic.lineBit 1 = false := by
      rw [Bool.eq_false_iff, ne_eq, hline]
      exact fun h => h.1 rfl
    have hkey := hsh.line hbit
    have htold := hsh.told
    rw [if_pos (hvector.mpr rfl)]
    refine ⟨hsh.accepted, ?_, fun hl => absurd hl (by simp [hafter]), hsh.stdout⟩
    simp only [hkey, hbit, hafter] at htold ⊢
    simpa using htold
  · rw [if_neg fun h => hn (hvector.mp h)]
    refine hsh.frame rfl rfl ?_ rfl
    rw [Bool.eq_iff_iff, hline, and_iff_right hn]

/-- **An IN.** -/
theorem input_ok (hs : Sane s) (o : Option Byte) {addr len : ℕ} (hok : PortOk addr len)
    (hanswer : addr = 0x60 ∧ len = 1 → h.read.length < h.told) : ∃ v s',
    portRead s addr len = .ok (v, s') ∧ Sane s' ∧ s'.dev.pic = s.dev.pic ∧
      (Shaken h s → Shaken (h.after ⟨s, o⟩ v (.input addr len)) s') := by
  by_cases hkey : addr = 0x60 ∧ len = 1
  · obtain ⟨rfl, rfl⟩ := hkey
    obtain ⟨v, hrun, hv⟩ := portRead_key hs.maps
    have hlt := hanswer ⟨rfl, rfl⟩
    refine ⟨v, _, hrun, ⟨hs.maps, hs.pic⟩, rfl, fun hsh => ?_⟩
    have htold := hsh.told
    -- there is an answer to give, so the code at the port is new
    have hnew : s.dev.newkey = true ∧ s.dev.pic.lineBit 1 = false := by
      by_contra hno
      rw [if_neg hno] at htold
      omega
    rw [if_pos hnew] at htold
    rw [History.after, if_pos ⟨rfl, rfl⟩]
    refine ⟨?_, ?_, fun hl => absurd hl (by simp [hnew.2]), hsh.stdout⟩
    · have hacc := hsh.accepted
      simpa [hnew.1, hv] using hacc
    · simpa using htold
  · obtain ⟨v, hrun, -⟩ := portRead_other hs.maps hok hkey
    refine ⟨v, s, hrun, hs, rfl, fun hsh => ?_⟩
    rwa [History.after, if_neg hkey]

/-- **An OUT.** -/
theorem output_ok (hs : Sane s) (o : Option Byte) {addr len : ℕ} (data : Word) (hok : PortOk addr len)
    (hserial : ¬(0x3F8 ≤ addr ∧ addr + len - 1 ≤ 0x3FF ∧ len ≠ 1)) (hspare : ¬(addr ≤ 0x60 ∧ 0x60 < addr + len)) : ∃ s',
    portWrite s addr len data = .ok s' ∧ Sane s' ∧
      (Shaken h s → Shaken (h.after ⟨s, o⟩ 0 (.output addr len data)) s') := by
  rw [portWrite_console hs.maps hok, if_neg hserial]
  refine ⟨_, rfl, ⟨hs.maps, ?_⟩, fun hsh => ?_⟩
  · dsimp only
    split_ifs <;> exact hs.pic
  · rw [History.after]
    by_cases hput : addr = 0x3F8 ∧ len = 1
    · simp only [if_pos hput]
      exact ⟨by simpa [hspare] using hsh.accepted, hsh.told, hsh.line, by rw [hsh.stdout]⟩
    · simp only [if_neg hput]
      exact hsh.frame (if_neg hspare) rfl rfl rfl

end Steps

/-! ### With the processor -/

/-- The devices are in order, and while the processor takes an interrupt it is asked to. -/
structure Ready (s : State) : Prop where
  sane : Sane s.ports
  asked : s.intrNo ≠ none → s.ports.dev.pic.INTR = true

/-- The handshake holds, and line 1 will be acknowledged where it was queried. -/
structure Tracked (h : History) (s : State) : Prop where
  shaken : Shaken h s.ports
  vector : ∀ n, s.intrNo = some n → (n = 33 ↔ queryIntr s.ports.dev.pic = 33)

section Steps

variable {h : History} {s s' : State} {e : Event} {v : Word}

/-- An event of the guest, where the processor takes no interrupt. -/
theorem Ready.idle {p : Ports} (hp : Sane p) : Ready ⟨p, none⟩ := ⟨hp, fun hn => absurd rfl hn⟩

theorem Tracked.idle {p : Ports} (hp : Shaken h p) : Tracked h ⟨p, none⟩ := ⟨hp, fun _ hn => nomatch hn⟩

/-- **A tick.** -/
theorem timer_ok (hr : Ready s) (running : Bool) : ∃ s', step (.timer running) s = .ok (0, s') ∧ Ready s' ∧
    ((h.after s 0 (.timer running)).slips = 0 → Tracked h s → Tracked (h.after s 0 (.timer running)) s') := by
  rw [History.after]
  cases running with
  | false => exact ⟨s, rfl, hr, fun _ => id⟩
  | true =>
    obtain ⟨p, hrun, hp, hintr, hquery, hshaken⟩ :=
      raise_ok (h := h) hr.sane (n := 0) (by decide) (by decide)
    refine ⟨{ s with ports := p }, ?_, ⟨hp, fun _ => hintr⟩, fun hslips ht => ?_⟩
    · rw [step, timerIntr, if_pos rfl]
      exact congrArg (· >>= _) hrun
    · have hnot : ¬ (true = true ∧ s.intrNo = some 33) := fun hslip => by
        rw [if_pos hslip] at hslips
        exact absurd hslips (Nat.succ_ne_zero _)
      rw [if_neg hnot]
      refine ⟨hshaken ht.shaken, fun n hn => ?_⟩
      -- line 0 goes first, and it is not line 1 that was queried
      dsimp only
      rw [hquery rfl]
      refine iff_of_false (fun h33 => hnot ⟨rfl, h33 ▸ hn⟩) (by decide)

/-- **A step.** -/
theorem step_ready (hr : Ready s) (hlegal : e.Legal h s) (hfits : e.Fits) :
    ∃ v s', step e s = .ok (v, s') ∧ Ready s' ∧
      ((h.after s v e).slips = 0 → Tracked h s → Tracked (h.after s v e) s') := by
  obtain ⟨p, o⟩ := s
  cases e with
  | timer running =>
    obtain ⟨s', hrun, hs'⟩ := timer_ok hr running
    exact ⟨0, s', hrun, hs'⟩
  | key running scancode =>
    obtain rfl : o = none := hlegal
    obtain ⟨p', hrun, hp, hshaken⟩ := key_ok (h := h) hr.sane none running scancode
    exact ⟨0, ⟨p', none⟩, by rw [step, hrun]; rfl, .idle hp, fun _ ht => .idle (hshaken ht.shaken)⟩
  | raise n =>
    obtain ⟨rfl, h1, h2⟩ : o = none ∧ n ≠ 1 ∧ n ≠ 2 := hlegal
    obtain ⟨p', hrun, hp, -, -, hshaken⟩ := raise_ok (h := h) hr.sane h1 h2
    exact ⟨0, ⟨p', none⟩, by rw [step, hrun]; rfl, .idle hp, fun _ ht => .idle (hshaken ht.shaken)⟩
  | input addr len =>
    obtain ⟨rfl, hanswer⟩ : o = none ∧ _ := hlegal
    obtain ⟨v, p', hrun, hp, -, hshaken⟩ := input_ok hr.sane none hfits hanswer
    exact ⟨v, ⟨p', none⟩, by rw [step, hrun]; rfl, .idle hp, fun _ ht => .idle (hshaken ht.shaken)⟩
  | output addr len data =>
    obtain ⟨rfl, hspare⟩ : o = none ∧ _ := hlegal
    obtain ⟨p', hrun, hp, hshaken⟩ := output_ok (h := h) hr.sane none data hfits.1 hfits.2 hspare
    exact ⟨0, ⟨p', none⟩, by rw [step, hrun]; rfl, .idle hp, fun _ ht => .idle (hshaken ht.shaken)⟩
  | query =>
    obtain ⟨rfl, hintr⟩ : o = none ∧ _ := hlegal
    refine ⟨0, _, rfl, ⟨hr.sane, fun _ => hintr⟩, fun _ ht => ⟨ht.shaken, fun n hn => ?_⟩⟩
    rw [← Option.some.inj hn]
  | ack =>
    obtain ⟨n, hn⟩ : ∃ n, o = some n := Option.ne_none_iff_exists'.mp hlegal
    subst hn
    obtain ⟨p', hrun, hp, hshaken⟩ := ack_ok (h := h) hr.sane (hr.asked hlegal)
    refine ⟨0, ⟨p', none⟩, by rw [step, hrun]; rfl, .idle hp, fun _ ht => .idle ?_⟩
    have hvector := ht.vector n rfl
    have hafter := hshaken ht.shaken
    rw [History.after]
    simp only [Option.some.injEq, hvector]
    exact hafter

/-- Only those events are accepted. -/
theorem fits_of_step (hs : Sane s.ports) (hstep : step e s = .ok (v, s')) : e.Fits := by
  cases e with
  | input addr len =>
    by_contra hok
    have hok' : ¬PortOk addr len := hok
    rw [step, portRead, if_neg hok'] at hstep
    cases hstep
  | output addr len data =>
    by_cases hok : PortOk addr len
    · refine ⟨hok, fun hserial => ?_⟩
      rw [step, portWrite_console hs.maps hok, if_pos hserial] at hstep
      cases hstep
    · rw [step, portWrite, if_neg hok] at hstep
      cases hstep
  | _ => trivial

/-- A slip is not taken back. -/
theorem slips_le_after : h.slips ≤ (h.after s v e).slips := by
  cases e with
  | timer =>
    rw [History.after]
    split_ifs
    · exact Nat.le_succ _
    · exact le_rfl
  | key | input | output | ack =>
    rw [History.after]
    split_ifs <;> exact le_rfl
  | raise | query => exact le_rfl

end Steps

namespace Run

variable {h : History} {s : State} {e : Event}

theorem inv (hrun : Run h s) : Ready s ∧ (h.slips = 0 → Tracked h s) := by
  induction hrun with
  | start => exact ⟨.idle initial_sane, fun _ => .idle initial_shaken⟩
  | event _ hlegal hstep ih =>
    obtain ⟨v, s', hstep', hr, ht⟩ := step_ready ih.1 hlegal (fits_of_step ih.1.sane hstep)
    obtain ⟨rfl, rfl⟩ := Prod.mk.inj (Except.ok.inj (hstep'.symm.trans hstep))
    exact ⟨hr, fun hslips => ht hslips (ih.2 (Nat.eq_zero_of_le_zero (hslips ▸ slips_le_after)))⟩

/-- Two keys are answered, the second with a tick before it, and a third is accepted. -/
theorem answered : ∃ h s, Run h s ∧ h.slips = 0 ∧ h.accepted = [30, 158, 48] ∧ h.told = 2 ∧ h.read = [30, 158] := by
  have h1 := start.event (e := .key true 30) rfl rfl
  have h2 := (h1.event (e := .query) ⟨rfl, rfl⟩ rfl).event (e := .ack) (by exact nofun) rfl
  have h3 := (h2.event (e := .input 0x60 1) ⟨rfl, fun _ => by decide⟩ rfl).event (e := .key true 158) rfl rfl
  have h4 := h3.event (e := .timer true) trivial rfl
  have h5 := (h4.event (e := .query) ⟨rfl, rfl⟩ rfl).event (e := .ack) (by exact nofun) rfl
  have h6 := (h5.event (e := .query) ⟨rfl, rfl⟩ rfl).event (e := .ack) (by exact nofun) rfl
  have h7 := (h6.event (e := .input 0x60 1) ⟨rfl, fun _ => by decide⟩ rfl).event (e := .key true 48) rfl rfl
  exact ⟨_, _, h7, rfl, by decide, rfl, by decide⟩

/-- **The handshake.** Where no tick falls between the two calls for line 1, the scan codes that were
read are those that were accepted, in order, but perhaps the last, which is still at the port. One
interrupt was taken for each that was read, and one more if the last was told of; if it was not, its
line is raised and the processor is asked. -/
theorem handshake (hrun : Run h s) (hslips : h.slips = 0) :
    h.accepted = h.read ++ (if s.ports.dev.newkey then [s.ports.space 0x60] else []) ∧
    h.told = h.read.length + (if s.ports.dev.newkey = true ∧ s.ports.dev.pic.lineBit 1 = false then 1 else 0) ∧
    (s.ports.dev.pic.lineBit 1 = true → s.ports.dev.newkey = true ∧ s.ports.dev.pic.INTR = true) := by
  obtain ⟨hready, htracked⟩ := hrun.inv
  obtain ⟨S, hS⟩ := hready.sane.pic
  have hsh := (htracked hslips).shaken
  refine ⟨hsh.accepted, hsh.told, fun hline => ⟨hsh.line hline, hS.intr.mpr ?_⟩⟩
  exact ne_zero_of_bit hline

theorem handshake_answered : ∃ (h : History) (s : State), h.accepted = [30, 158, 48] ∧
    h.accepted = h.read ++ (if s.ports.dev.newkey then [s.ports.space 0x60] else []) ∧
    h.told = h.read.length + (if s.ports.dev.newkey = true ∧ s.ports.dev.pic.lineBit 1 = false then 1 else 0) := by
  obtain ⟨h, s, hrun, hslips, hacc, -, -⟩ := answered
  obtain ⟨haccepted, htold, -⟩ := handshake hrun hslips
  exact ⟨h, s, hacc, haccepted, htold⟩

/-- A tick between the two calls: line 0 is acknowledged, line 1 is told of again, and its scan code is
read twice. -/
theorem slipped : ∃ h s, Run h s ∧ s.intrNo = none ∧ h.slips = 1 ∧ h.accepted = [30] ∧ h.read = [30, 30] := by
  have h1 := (start.event (e := .key true 30) rfl rfl).event (e := .query) ⟨rfl, rfl⟩ rfl
  have h2 := (h1.event (e := .timer true) trivial rfl).event (e := .ack) (by exact nofun) rfl
  have h3 := h2.event (e := .input 0x60 1) ⟨rfl, fun _ => by decide⟩ rfl
  have h4 := (h3.event (e := .query) ⟨rfl, rfl⟩ rfl).event (e := .ack) (by exact nofun) rfl
  have h5 := h4.event (e := .input 0x60 1) ⟨rfl, fun _ => by decide⟩ rfl
  exact ⟨_, _, h5, rfl, by decide, by decide, by decide⟩

/-- **No assertion fails**, but for those on the length and the place of a port access. -/
theorem goes_on (hrun : Run h s) (hlegal : e.Legal h s) : (∃ r, step e s = .ok r) ↔ e.Fits := by
  obtain ⟨hready, -⟩ := hrun.inv
  refine ⟨fun ⟨⟨v, s'⟩, hstep⟩ => fits_of_step hready.sane hstep, fun hfits => ?_⟩
  obtain ⟨v, s', hstep, -⟩ := step_ready hready hlegal hfits
  exact ⟨(v, s'), hstep⟩

/-- After a slip. -/
theorem goes_on_slipped : ∃ (h : History) (s : State), h.slips = 1 ∧ h.read = [30, 30] ∧
    ((∃ r, step (.output 0x3F8 1 0x41) s = .ok r) ↔ Event.Fits (.output 0x3F8 1 0x41)) := by
  obtain ⟨h, s, hrun, hidle, hslips, -, hread⟩ := slipped
  exact ⟨h, s, hslips, hread, goes_on hrun ⟨hidle, by decide⟩⟩

end Run

end Console

end Nemu
