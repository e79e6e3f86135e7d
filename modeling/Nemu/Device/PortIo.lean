/-
# Port I/O

`port-io.c`: one space of 65536 bytes, and up to 8 maps with the callback of
their device. A write stores its bytes and then calls the device; a read calls
the device first, so that it can put the data there. The IDE device keeps its
registers in the eight bytes at 0x1F0, and what the kernel's driver does to
ports 0 to 7 of it (`pioWrite`, `pioRead`) is what these accesses do to the
space (`portWrite_ide`, `portRead_ide`).

Key definitions: `PortIo`, `addPioMap`, `portRead`, `portWrite`, `ideMap`.
Key theorems: `portWrite_ide`, `portRead_ide`.
-/
import Nemu.Kernel.Disk

namespace Nemu

open Bytes

/-- `PIO_t`; the callback acts on `pio_space` and on its device. -/
structure PioMap (δ : Type) where
  low : ℕ
  high : ℕ
  callback : ℕ → ℕ → Bool → (ℕ → Byte) → δ → Except Fault ((ℕ → Byte) × δ)

/-- `pio_space`, `maps` and the devices behind them. -/
structure PortIo (δ : Type) where
  space : ℕ → Byte
  maps : List (PioMap δ)
  dev : δ

section Ports

variable {δ : Type}

def addPioMap (s : PortIo δ) (addr len : ℕ)
    (callback : ℕ → ℕ → Bool → (ℕ → Byte) → δ → Except Fault ((ℕ → Byte) × δ)) :
    Except Fault (PortIo δ) :=
  if s.maps.length < 8 ∧ addr + len ≤ 65536 then
    .ok { s with maps := s.maps ++ [⟨addr, addr + len - 1, callback⟩] }
  else .error .assert

/-- `pio_callback`: the first map that holds the whole access. -/
def pioCallback (s : PortIo δ) (addr len : ℕ) (isWrite : Bool) : Except Fault (PortIo δ) :=
  match s.maps.find? fun m => decide (m.low ≤ addr ∧ addr + len - 1 ≤ m.high) with
  | some m => do
    let (space, dev) ← m.callback addr len isWrite s.space s.dev
    return { s with space := space, dev := dev }
  | none => .ok s

/-- The lengths and addresses that `pio_read` and `pio_write` assert. -/
def PortOk (addr len : ℕ) : Prop := (len = 1 ∨ len = 2 ∨ len = 4) ∧ addr + len - 1 < 65536

instance (addr len : ℕ) : Decidable (PortOk addr len) := inferInstanceAs (Decidable (_ ∧ _))

/-- `pio_read`. -/
def portRead (s : PortIo δ) (addr len : ℕ) : Except Fault (Word × PortIo δ) :=
  if PortOk addr len then do
    let s ← pioCallback s addr len false
    return (word (fun i => s.space (addr + i)) 4 &&& low len, s)
  else .error .assert

/-- `pio_write`. -/
def portWrite (s : PortIo δ) (addr len : ℕ) (data : Word) : Except Fault (PortIo δ) :=
  if PortOk addr len then
    pioCallback { s with space := fun n =>
      if addr ≤ n ∧ n < addr + len then byte data (n - addr) else s.space n } addr len true
  else .error .assert

end Ports

/-! ### The IDE device in the space -/

/-- What the IDE device keeps outside the space. -/
structure IdeRest where
  pos : ℕ
  byteCnt : ℕ
  ideWrite : Bool
  disk : ℕ → Byte

/-- `ide_port_base` points into the space. -/
def ideAt (space : ℕ → Byte) (d : IdeRest) : Ide :=
  { port := fun i => space (0x1F0 + i), pos := d.pos, byteCnt := d.byteCnt,
    ideWrite := d.ideWrite, disk := d.disk }

def ideBack (space : ℕ → Byte) (e : Ide) : (ℕ → Byte) × IdeRest :=
  (fun n => if 0x1F0 ≤ n then e.port (n - 0x1F0) else space n,
    { pos := e.pos, byteCnt := e.byteCnt, ideWrite := e.ideWrite, disk := e.disk })

/-- The map that `init_ide` adds. -/
def ideMap : PioMap IdeRest where
  low := 0x1F0
  high := 0x1F7
  callback addr len isWrite space d := do
    let e ← ideIoHandler (ideAt space d) (addr - 0x1F0) len isWrite
    return ideBack space e

namespace PortIo

def ide (s : PortIo IdeRest) : Ide := ideAt s.space s.dev

def putIde (s : PortIo IdeRest) (e : Ide) : PortIo IdeRest :=
  { s with space := (ideBack s.space e).1, dev := (ideBack s.space e).2 }

@[simp] theorem ide_putIde (s : PortIo IdeRest) (e : Ide) : (s.putIde e).ide = e := by
  simp [ide, putIde, ideAt, ideBack]

@[simp] theorem putIde_ide (s : PortIo IdeRest) : s.putIde s.ide = s := by
  have hspace : ∀ n, (if 0x1F0 ≤ n then s.space (0x1F0 + (n - 0x1F0)) else s.space n) = s.space n := by
    intro n
    split_ifs with h
    · rw [Nat.add_sub_cancel' h]
    · rfl
  simp only [putIde, ide, ideAt, ideBack, hspace]

end PortIo

/-- The device is registered, and no map before it overlaps its ports. -/
def PortIo.HasIde (s : PortIo IdeRest) : Prop :=
  ∃ before after, s.maps = before ++ ideMap :: after ∧
    ∀ m ∈ before, m.high < 0x1F0 ∨ 0x1F7 < m.low

section Ide

variable {s : PortIo IdeRest} {p len : ℕ}

/-- An access to the eight ports goes to the device. -/
theorem pioCallback_ide (hm : s.HasIde) (h1 : 1 ≤ len) (h8 : p + len ≤ 8) (isWrite : Bool) :
    pioCallback s (0x1F0 + p) len isWrite =
      (ideIoHandler s.ide p len isWrite).map s.putIde := by
  obtain ⟨before, after, hmaps, hbefore⟩ := hm
  have hfind : (s.maps.find? fun m =>
      decide (m.low ≤ 0x1F0 + p ∧ 0x1F0 + p + len - 1 ≤ m.high)) = some ideMap := by
    have hnone : (before.find? fun m =>
        decide (m.low ≤ 0x1F0 + p ∧ 0x1F0 + p + len - 1 ≤ m.high)) = none := by
      apply List.find?_eq_none.mpr
      intro m hmem
      have := hbefore m hmem
      simp only [decide_eq_true_eq]
      omega
    rw [hmaps, List.find?_append, hnone, Option.none_or]
    apply List.find?_cons_of_pos
    apply decide_eq_true
    change 0x1F0 ≤ 0x1F0 + p ∧ 0x1F0 + p + len - 1 ≤ 0x1F7
    omega
  unfold pioCallback
  rw [hfind]
  simp only [ideMap, Nat.add_sub_cancel_left]
  change (ideIoHandler s.ide p len isWrite >>= _) >>= _ = _
  cases ideIoHandler s.ide p len isWrite with
  | error e => rfl
  | ok e => rfl

/-- **A write to a port of the device.** -/
theorem portWrite_ide (hm : s.HasIde) (hl : len = 1 ∨ len = 2 ∨ len = 4)
    (h8 : p + len ≤ 8) (data : Word) :
    portWrite s (0x1F0 + p) len data = (pioWrite s.ide p len data).map s.putIde := by
  have hok : PortOk (0x1F0 + p) len := ⟨hl, by omega⟩
  rw [portWrite, if_pos hok, pioCallback_ide (by exact hm) (by omega) h8, pioWrite]
  have hide : ideAt (fun n => if 0x1F0 + p ≤ n ∧ n < 0x1F0 + p + len
      then byte data (n - (0x1F0 + p)) else s.space n) s.dev =
      { s.ide with port := fun i =>
        if p ≤ i ∧ i < p + len then byte data (i - p) else s.ide.port i } := by
    unfold ideAt PortIo.ide
    congr 1
    funext i
    refine if_congr (by omega) ?_ rfl
    rw [Nat.add_sub_add_left]
  have hput : ∀ e, PortIo.putIde { s with space := fun n =>
      if 0x1F0 + p ≤ n ∧ n < 0x1F0 + p + len then byte data (n - (0x1F0 + p)) else s.space n } e =
      s.putIde e := by
    intro e
    unfold PortIo.putIde ideBack
    congr 1
    funext n
    by_cases hn : 0x1F0 ≤ n
    · simp only [if_pos hn]
    · simp only [if_neg hn]
      rw [if_neg (by omega)]
  rw [funext hput]
  unfold PortIo.ide
  rw [hide]
  rfl

/-- **A read from a port of the device.** -/
theorem portRead_ide (hm : s.HasIde) (hl : len = 1 ∨ len = 2 ∨ len = 4)
    (h8 : p + len ≤ 8) :
    portRead s (0x1F0 + p) len = (pioRead s.ide p len).map fun r => (r.1, s.putIde r.2) := by
  have hok : PortOk (0x1F0 + p) len := ⟨hl, by omega⟩
  rw [portRead, if_pos hok, pioCallback_ide hm (by omega) h8, pioRead]
  cases ideIoHandler s.ide p len false with
  | error e => rfl
  | ok e =>
    refine congrArg Except.ok (Prod.ext ?_ rfl)
    change word _ 4 &&& low len = word _ len
    rw [and_low_eq_word _ (by omega)]
    refine word_congr fun i hi => ?_
    rw [byte_word _ _ _ (by omega), if_pos (by omega)]
    change (if 0x1F0 ≤ 0x1F0 + p + i then e.port (0x1F0 + p + i - 0x1F0) else s.space _) = _
    rw [if_pos (by omega), show 0x1F0 + p + i - 0x1F0 = p + i by omega]

end Ide

/-! ### The driver over the ports -/

/-- The kernel's driver and the emulator's ports. -/
structure PState where
  buf : ℕ → SectorBuf
  counter : Word
  pio : PortIo IdeRest

namespace PState

/-- What the driver's actions see of it. -/
def view (s : PState) : DState := { buf := s.buf, counter := s.counter, ide := s.pio.ide }

def put (s : PState) (t : DState) : PState :=
  { buf := t.buf, counter := t.counter, pio := s.pio.putIde t.ide }

@[simp] theorem view_put (s : PState) (t : DState) : (s.put t).view = t := by
  simp [view, put]

@[simp] theorem put_put (s : PState) (t u : DState) : (s.put t).put u = s.put u := by
  have hspace : ∀ n, (if 0x1F0 ≤ n then u.ide.port (n - 0x1F0)
      else if 0x1F0 ≤ n then t.ide.port (n - 0x1F0) else s.pio.space n) =
      if 0x1F0 ≤ n then u.ide.port (n - 0x1F0) else s.pio.space n := by
    intro n
    split_ifs <;> rfl
  simp only [put, PortIo.putIde, ideBack, hspace]

@[simp] theorem hasIde_put {s : PState} (t : DState) : (s.put t).pio.HasIde ↔ s.pio.HasIde := Iff.rfl

end PState

/-- The actions of the driver, as `in_byte`, `out_byte`, `in_long` and
`out_long` make them. -/
def portSem : (a : Act) → PState → Except Fault (a.Res × PState)
  | .inByte port, s => do
    let (v, pio) ← portRead s.pio (0x1F0 + port) 1
    return (byte v 0, { s with pio := pio })
  | .outByte port data, s => do
    let pio ← portWrite s.pio (0x1F0 + port) 1 (data.setWidth 32)
    return ((), { s with pio := pio })
  | .inLong, s => do
    let (v, pio) ← portRead s.pio 0x1F0 4
    return (v, { s with pio := pio })
  | .outWord i k, s => do
    let pio ← portWrite s.pio 0x1F0 4 (word (fun j => (s.buf i).content (4 * k + j)) 4)
    return ((), { s with pio := pio })
  | .spin, _ => .error .spins
  | .getBuf i, s => .ok (s.buf i, s)
  | .setWord i k data, s => .ok ((), { s with buf := Function.update s.buf i { s.buf i with
      content := fun n =>
        if 4 * k ≤ n ∧ n < 4 * k + 4 then byte data (n - 4 * k) else (s.buf i).content n } })
  | .setByte i j data, s => .ok ((), { s with buf := Function.update s.buf i { s.buf i with
      content := Function.update (s.buf i).content j data } })
  | .setUsed i b, s => .ok ((), { s with buf := Function.update s.buf i { s.buf i with used := b } })
  | .setSector i sector, s =>
    .ok ((), { s with buf := Function.update s.buf i { s.buf i with sector := sector } })
  | .setDirty i b, s =>
    .ok ((), { s with buf := Function.update s.buf i { s.buf i with dirty := b } })

/-- The action is about one of the eight ports, or none. -/
def Act.InIde : Act → Prop
  | .inByte port => port < 8
  | .outByte port _ => port < 8
  | _ => True

/-- **An action over the ports is the action on the device.** -/
theorem portSem_eq {s : PState} (hs : s.pio.HasIde) {a : Act} (ha : a.InIde) {r : a.Res}
    {t : DState} (h : actSem a s.view = .ok (r, t)) : portSem a s = .ok (r, s.put t) := by
  have hself : ∀ b, ({ s with buf := b } : PState) = s.put { s.view with buf := b } := by
    intro b
    simp [PState.put, PState.view]
  cases a with
  | inByte port =>
    change (portRead s.pio (0x1F0 + port) 1 >>= _) = _
    rw [portRead_ide hs (.inl rfl) ha]
    change (pioRead s.pio.ide port 1 >>= _) = _ at h
    cases hr : pioRead s.pio.ide port 1 with
    | error e => rw [hr] at h; nomatch h
    | ok x =>
      rw [hr] at h
      obtain ⟨rfl, rfl⟩ := Prod.mk.inj (Except.ok.inj h)
      rfl
  | outByte port data =>
    change (portWrite s.pio (0x1F0 + port) 1 (data.setWidth 32) >>= _) = _
    rw [portWrite_ide hs (.inl rfl) ha]
    change (pioWrite s.pio.ide port 1 (data.setWidth 32) >>= _) = _ at h
    cases hw : pioWrite s.pio.ide port 1 (data.setWidth 32) with
    | error e => rw [hw] at h; nomatch h
    | ok d =>
      rw [hw] at h
      obtain ⟨rfl, rfl⟩ := Prod.mk.inj (Except.ok.inj h)
      rfl
  | inLong =>
    change (portRead s.pio (0x1F0 + 0) 4 >>= _) = _
    rw [portRead_ide hs (.inr (.inr rfl)) (by norm_num)]
    change (pioRead s.pio.ide 0 4 >>= _) = _ at h
    cases hr : pioRead s.pio.ide 0 4 with
    | error e => rw [hr] at h; nomatch h
    | ok x =>
      rw [hr] at h
      obtain ⟨rfl, rfl⟩ := Prod.mk.inj (Except.ok.inj h)
      rfl
  | outWord i k =>
    change (portWrite s.pio (0x1F0 + 0) 4 _ >>= _) = _
    rw [portWrite_ide hs (.inr (.inr rfl)) (by norm_num)]
    change (pioWrite s.pio.ide 0 4 (word (fun j => (s.buf i).content (4 * k + j)) 4) >>= _) = _ at h
    cases hw : pioWrite s.pio.ide 0 4 (word (fun j => (s.buf i).content (4 * k + j)) 4) with
    | error e => rw [hw] at h; nomatch h
    | ok d =>
      rw [hw] at h
      obtain ⟨rfl, rfl⟩ := Prod.mk.inj (Except.ok.inj h)
      rfl
  | spin => nomatch h
  | getBuf i =>
    obtain ⟨rfl, rfl⟩ := Prod.mk.inj (Except.ok.inj h)
    exact congrArg (fun u => Except.ok (s.buf i, u)) (hself s.buf)
  | setWord | setByte | setUsed | setSector | setDirty =>
    obtain ⟨rfl, rfl⟩ := Prod.mk.inj (Except.ok.inj h)
    exact congrArg (fun u => Except.ok ((), u)) (hself _)

open Preempt Prog

/-- Every port access of the program is about the device's eight ports. -/
structure InIde {α : Type} (p : Driver α) : Prop where
  all : p.All Act.InIde

/-- **A run over the ports is the run on the device.** -/
theorem run_portSem {α : Type} : ∀ {p : Driver α} {s : PState} {a : α} {t : DState},
    s.pio.HasIde → InIde p → run actSem p s.view = .ok (a, t) →
    ∃ s', run portSem p s = .ok (a, s') ∧ s'.view = t ∧ s'.pio.HasIde
  | ret b, s, a, t, hs, _, h => by
    obtain ⟨rfl, rfl⟩ := Prod.mk.inj (Except.ok.inj h)
    exact ⟨s, rfl, rfl, hs⟩
  | act b k, s, a, t, hs, hp, h => by
    cases hb : actSem b s.view with
    | error e =>
      rw [run, hb] at h
      cases h
    | ok x =>
      obtain ⟨r, u⟩ := x
      rw [run_act actSem hb] at h
      rw [run_act portSem (portSem_eq hs hp.all.1 hb)]
      exact run_portSem (s := s.put u) hs ⟨hp.all.2 r⟩ (by rwa [PState.view_put])

end Nemu
