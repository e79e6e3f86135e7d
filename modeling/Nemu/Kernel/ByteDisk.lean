/-
# The disk as bytes

`ide.c`: `ide_read` and `ide_write` move bytes one at a time through the sector
buffers, and `buf_writeback` brings the image up to date. While no handler runs
inside a call, the buffers and the device together are a flat disk: a read
delivers the bytes last written, and after a write-back the image holds them
all (`runIde_eq_flat`). The registers that `ide_prepare` writes name the sector
it was given (`run_command`).

`buf` is static, so no buffer is dirty before `buf_init`, which only clears
`used`.

Key definitions: `Driver.ideRead`, `Driver.ideWrite`, `bufInit`, `IdeCall`, `runIde`,
`flatIde`.
Key theorems: `run_command`, `run_ideCall`, `runIde_eq_flat`.
-/
import Nemu.Kernel.DiskCache
import Nemu.Device.PortIo

namespace Nemu

open Bytes Preempt Prog

/-! ### The calls -/

def bufInit : Driver Unit := upto (fun i => step (.setUsed i false)) 128

section Calls

variable (polls : ℕ)

/-- The first `n` rounds of `ide_read`. -/
def ideReadUpto (offset : Word) : ℕ → Driver (List Byte)
  | 0 => return []
  | n + 1 => do
    let bs ← ideReadUpto offset n
    let b ← readByte polls (offset + BitVec.ofNat 32 n)
    return bs ++ [b]

/-- `ide_read`: what it leaves in `buf`. -/
def Driver.ideRead (offset len : Word) : Driver (List Byte) := ideReadUpto polls offset len.toNat

def Driver.ideWrite (buf : ℕ → Byte) (offset len : Word) : Driver Unit :=
  upto (fun i => writeByte polls (offset + BitVec.ofNat 32 i) (buf i)) len.toNat

inductive IdeCall where
  | read (offset len : Word)
  | write (buf : ℕ → Byte) (offset len : Word)
  | writeback

/-- A call, and the bytes it delivers. -/
def ideCall : IdeCall → Driver (List Byte)
  | .read offset len => Driver.ideRead polls offset len
  | .write buf offset len => do
    Driver.ideWrite polls buf offset len
    return []
  | .writeback => do
    bufWriteback polls
    return []

/-- A sequence of calls; what each of them delivers, in order. -/
def runIde : List IdeCall → Driver (List (List Byte))
  | [] => return []
  | c :: cs => do
    let bs ← ideCall polls c
    let bss ← runIde cs
    return bs :: bss

end Calls

/-! ### The flat disk -/

/-- The content after the first `n` bytes of `buf` were written from `offset`
on. -/
def writtenUpto (L : ℕ → Byte) (buf : ℕ → Byte) (offset : Word) : ℕ → ℕ → Byte
  | 0 => L
  | n + 1 => Function.update (writtenUpto L buf offset n) (offset + BitVec.ofNat 32 n).toNat (buf n)

/-- What a call delivers from a flat disk, and the content it leaves. -/
def IdeCall.flat : IdeCall → (ℕ → Byte) → List Byte × (ℕ → Byte)
  | .read offset len, L =>
    ((List.range len.toNat).map fun i => L (offset + BitVec.ofNat 32 i).toNat, L)
  | .write buf offset len, L => ([], writtenUpto L buf offset len.toNat)
  | .writeback, L => ([], L)

def flatIde : List IdeCall → (ℕ → Byte) → List (List Byte) × (ℕ → Byte)
  | [], L => ([], L)
  | c :: cs, L => ((c.flat L).1 :: (flatIde cs (c.flat L).2).1, (flatIde cs (c.flat L).2).2)

/-! ### A command -/

/-- **The device seeks to the sector that `ide_prepare` names**, for a read
and for a write. -/
theorem run_command {s : DState} (hr : s.ide.Ready) (p : ℕ) {sector : Word}
    (hs : sector.toNat < 2 ^ 23) {cmd : Byte} (hc : cmd = 0x20 ∨ cmd = 0x30) :
    ∃ d, run actSem (do idePrepare (p + 1) sector; step (.outByte 7 cmd)) s =
      .ok ((), { s with ide := d }) ∧ d.pos = 512 * sector.toNat ∧ d.byteCnt = 0 ∧
        (d.ideWrite = true ↔ cmd = 0x30) ∧ d.disk = s.ide.disk := by
  obtain ⟨d, hrun, hrd, h3, hd⟩ := run_prepare hr p sector
  obtain ⟨port, hpos, hregs⟩ := run_sector (s := { s with ide := d }) hs hrd.2 h3
  rw [Nat.mul_comm] at hpos
  have hprep : (do idePrepare (p + 1) sector; step (.outByte 7 cmd) : Driver Unit) =
      prepare (p + 1) sector >>= fun _ => (do
        step (.outByte 4 (byte sector 1))
        step (.outByte 5 (byte sector 2))
        step (.outByte 6 (0xE0 ||| byte sector 3))
        step (.outByte 7 cmd)) := by
    simp only [idePrepare, prepare, bind_assoc]
  rw [hprep, run_bind actSem hrun]
  rcases hc with rfl | rfl
  · refine ⟨_, hregs ret (pioWrite_read hrd.2), hpos, rfl, ?_, hd⟩
    exact ⟨fun h => absurd h Bool.false_ne_true, fun h => absurd h (by decide)⟩
  · exact ⟨_, hregs ret (pioWrite_write hrd.2), hpos, rfl, ⟨fun _ => rfl, fun _ => rfl⟩, hd⟩

/-! ### Each call -/

section Run

variable {L : ℕ → Byte} {s : DState} {p : ℕ}

/-- What a call may rely on, and leaves: the buffers and the disk hold `L`. -/
def Holds (L : ℕ → Byte) (s : DState) : Prop := Coh L NoByte 128 128 s ∧ s.ide.Ready

theorem run_readByte (h : Holds L s) (offset : Word) : ∃ s',
    run actSem (readByte (p + 1) offset) s = .ok (L offset.toNat, s') ∧ Holds L s' := by
  obtain ⟨_, s', hrun, rfl, hs'⟩ := run_of_wp (wp_readByte (p := p) offset h.1 h.2)
  exact ⟨s', hrun, hs'⟩

theorem run_writeByte (h : Holds L s) (offset : Word) (data : Byte) : ∃ s',
    run actSem (writeByte (p + 1) offset data) s = .ok ((), s') ∧
      Holds (Function.update L offset.toNat data) s' := by
  obtain ⟨_, s', hrun, hs'⟩ := run_of_wp (wp_writeByte (p := p) offset data h.1 h.2)
  exact ⟨s', hrun, hs'⟩

theorem run_ideReadUpto (h : Holds L s) (offset : Word) (n : ℕ) : ∃ s',
    run actSem (ideReadUpto (p + 1) offset n) s =
      .ok ((List.range n).map fun i => L (offset + BitVec.ofNat 32 i).toNat, s') ∧ Holds L s' := by
  induction n with
  | zero => exact ⟨s, rfl, h⟩
  | succ n ih =>
    obtain ⟨t, ht, hholds⟩ := ih
    obtain ⟨s', hs', hholds'⟩ := run_readByte (p := p) hholds (offset + BitVec.ofNat 32 n)
    refine ⟨s', ?_, hholds'⟩
    rw [ideReadUpto, run_bind actSem ht, run_bind actSem hs', List.range_succ, List.map_append]
    rfl

theorem run_ideWriteUpto (h : Holds L s) (buf : ℕ → Byte) (offset : Word) (n : ℕ) : ∃ s',
    run actSem (upto (fun i => writeByte (p + 1) (offset + BitVec.ofNat 32 i) (buf i)) n) s =
      .ok ((), s') ∧ Holds (writtenUpto L buf offset n) s' := by
  induction n with
  | zero => exact ⟨s, rfl, h⟩
  | succ n ih =>
    obtain ⟨t, ht, hholds⟩ := ih
    obtain ⟨s', hs', hholds'⟩ := run_writeByte (p := p) hholds (offset + BitVec.ofNat 32 n) (buf n)
    exact ⟨s', by rw [upto, run_bind actSem ht, hs'], hholds'⟩

/-- After a write-back the image is the content. -/
theorem run_writeback (h : Holds L s) : ∃ s',
    run actSem (bufWriteback (p + 1)) s = .ok ((), s') ∧ Holds L s' ∧ s'.ide.disk = L := by
  obtain ⟨hc, hr⟩ := h
  obtain ⟨d, hrun, hrd, hdisk⟩ := run_bufWriteback (L := L) (M := NoByte) hr
    (fun i hi hd => hc.slots i hi (by omega) (hc.dirty i hi hd))
    (fun n hn hno => hc.disk n hn fun i hi _ => hno i hi) p 128 le_rfl
  have hflat : d.disk = L := funext fun n => hdisk n id fun i hi h128 => absurd hi (by omega)
  have hbuf : ∀ i < 128, (cleaned s 128 d).buf i = { s.buf i with dirty := false } :=
    fun i hi => if_pos hi
  refine ⟨_, hrun, ⟨⟨fun i hi h128 hu => ?_, fun i hi hd => ?_, fun n _ _ => ?_⟩, hrd⟩, hflat⟩
  · rw [hbuf i hi] at hu ⊢
    exact hc.slots i hi h128 hu
  · rw [hbuf i hi] at hd
    exact absurd hd Bool.false_ne_true
  · exact congrFun hflat n

/-- **Each call does what the flat disk does.** -/
theorem run_ideCall (h : Holds L s) : ∀ c : IdeCall, ∃ s',
    run actSem (ideCall (p + 1) c) s = .ok ((c.flat L).1, s') ∧ Holds (c.flat L).2 s'
  | .read offset len => run_ideReadUpto h offset len.toNat
  | .write buf offset len => by
    obtain ⟨s', hrun, hs'⟩ := run_ideWriteUpto (p := p) h buf offset len.toNat
    exact ⟨s', run_bind actSem hrun, hs'⟩
  | .writeback => by
    obtain ⟨s', hrun, hs', -⟩ := run_writeback (p := p) h
    exact ⟨s', run_bind actSem hrun, hs'⟩

theorem run_runIde : ∀ (cs : List IdeCall) {L : ℕ → Byte} {s : DState}, Holds L s → ∃ s',
    run actSem (runIde (p + 1) cs) s = .ok ((flatIde cs L).1, s') ∧ Holds (flatIde cs L).2 s'
  | [], L, s, h => ⟨s, rfl, h⟩
  | c :: cs, L, s, h => by
    obtain ⟨t, ht, hholds⟩ := run_ideCall (p := p) h c
    obtain ⟨s', hs', hholds'⟩ := run_runIde cs hholds
    exact ⟨s', by rw [runIde, run_bind actSem ht, run_bind actSem hs']; rfl, hholds'⟩

end Run

/-! ### The ports that the calls use -/

namespace InIde

variable {α β : Type}

theorem ret (a : α) : InIde (Prog.ret a : Driver α) := ⟨trivial⟩

theorem bind {p : Driver α} {k : α → Driver β} (hp : InIde p) (hk : ∀ a, InIde (k a)) :
    InIde (p >>= k) := ⟨hp.all.bind fun a => (hk a).all⟩

theorem act {a : Act} {k : a.Res → Driver α} (h : a.InIde) (hk : ∀ r, InIde (k r)) :
    InIde (Prog.act a k : Driver α) := ⟨h, fun r => (hk r).all⟩

theorem step {a : Act} (h : a.InIde) : InIde (Nemu.step a) := act h fun _ => ret ()

theorem outByte {p : ℕ} (h : p < 8) (data : Byte) : InIde (Nemu.step (.outByte p data)) := step h

theorem getBuf {i : ℕ} {k : SectorBuf → Driver α} (h : ∀ b, InIde (k b)) :
    InIde (Nemu.getBuf i >>= k) := act trivial h

theorem upto {body : ℕ → Driver Unit} (h : ∀ i, InIde (body i)) (n : ℕ) :
    InIde (Prog.upto body n) := ⟨All.upto (fun i => (h i).all) n⟩

theorem waitdisk (n : ℕ) : InIde (Nemu.waitdisk n) := by
  induction n with
  | zero => exact step trivial
  | succ n ih =>
    have hpoll : ∀ status : Byte, InIde (if status &&& (0x80 ||| 0x40) ≠ 0x40
        then Nemu.waitdisk n else Prog.ret ()) := by
      intro status
      split_ifs
      · exact ih
      · exact ret ()
    rw [waitdisk_succ]
    exact act (a := .inByte 7) (show 7 < 8 by norm_num) hpoll

theorem idePrepare (polls : ℕ) (sector : Word) : InIde (Nemu.idePrepare polls sector) := by
  unfold Nemu.idePrepare
  refine (waitdisk polls).bind fun _ => ?_
  refine (outByte (by norm_num) _).bind fun _ => ?_
  refine (outByte (by norm_num) _).bind fun _ => ?_
  refine (outByte (by norm_num) _).bind fun _ => ?_
  refine (outByte (by norm_num) _).bind fun _ => ?_
  refine (outByte (by norm_num) _).bind fun _ => ?_
  exact outByte (by norm_num) _

theorem diskDoWrite (polls i : ℕ) (sector : Word) : InIde (Nemu.diskDoWrite polls i sector) := by
  unfold Nemu.diskDoWrite
  refine (idePrepare polls sector).bind fun _ => ?_
  refine (outByte (by norm_num) _).bind fun _ => ?_
  exact upto (fun k => step (a := .outWord i k) trivial) 128

theorem diskDoRead (polls i : ℕ) (sector : Word) : InIde (Nemu.diskDoRead polls i sector) := by
  unfold Nemu.diskDoRead
  refine (idePrepare polls sector).bind fun _ => ?_
  refine (outByte (by norm_num) _).bind fun _ => ?_
  refine upto (fun k => ?_) 128
  exact act (a := .inLong) trivial fun data => step (a := .setWord i k data) trivial

theorem bufWriteback (polls : ℕ) : InIde (Nemu.bufWriteback polls) := by
  unfold Nemu.bufWriteback
  apply upto
  intro i
  apply getBuf
  intro ptr
  split_ifs
  · exact (diskDoWrite polls i _).bind fun _ => step (a := .setDirty i false) trivial
  · exact ret ()

theorem bufFetch (polls : ℕ) (sector : Word) : InIde (Nemu.bufFetch polls sector) := by
  have htail : InIde (do
      Nemu.diskDoRead polls (sector.toNat % 128) sector
      Nemu.step (.setUsed (sector.toNat % 128) true)
      Nemu.step (.setSector (sector.toNat % 128) sector)
      Nemu.step (.setDirty (sector.toNat % 128) false)
      return sector.toNat % 128) := by
    refine (diskDoRead polls _ sector).bind fun _ => ?_
    refine (step (a := .setUsed _ _) trivial).bind fun _ => ?_
    refine (step (a := .setSector _ _) trivial).bind fun _ => ?_
    exact (step (a := .setDirty _ _) trivial).bind fun _ => ret _
  unfold Nemu.bufFetch
  apply getBuf
  intro ptr
  split_ifs
  · exact ret _
  · apply getBuf
    intro ptr
    split_ifs
    · exact (diskDoWrite polls _ _).bind fun _ => htail
    · exact htail

theorem readByte (polls : ℕ) (offset : Word) : InIde (Nemu.readByte polls offset) :=
  (bufFetch polls _).bind fun _ => getBuf fun _ => ret _

theorem writeByte (polls : ℕ) (offset : Word) (data : Byte) :
    InIde (Nemu.writeByte polls offset data) :=
  (bufFetch polls _).bind fun _ =>
    (step (a := .setByte _ _ _) trivial).bind fun _ => step (a := .setDirty _ _) trivial

theorem ideReadUpto (polls : ℕ) (offset : Word) (n : ℕ) : InIde (Nemu.ideReadUpto polls offset n) := by
  induction n with
  | zero => exact ret []
  | succ n ih => exact ih.bind fun _ => (readByte polls _).bind fun _ => ret _

theorem ideCall (polls : ℕ) : ∀ c : IdeCall, InIde (Nemu.ideCall polls c)
  | .read offset len => ideReadUpto polls offset len.toNat
  | .write _ _ len => (upto (fun _ => writeByte polls _ _) len.toNat).bind fun _ => ret []
  | .writeback => (bufWriteback polls).bind fun _ => ret []

theorem runIde (polls : ℕ) : ∀ cs : List IdeCall, InIde (Nemu.runIde polls cs)
  | [] => ret []
  | c :: cs => (ideCall polls c).bind fun _ => (runIde polls cs).bind fun _ => ret _

theorem bufInit : InIde Nemu.bufInit :=
  upto (fun i => step (a := .setUsed i false) trivial) 128

end InIde

/-! ### From the start -/

/-- The kernel before `buf_init`: `buf` is zero, and the emulator's `init_ide`
has run. -/
structure DState.Fresh (s : DState) : Prop where
  clean : ∀ i, (s.buf i).dirty = false
  ready : s.ide.port 7 = 0x40
  idle : s.ide.byteCnt = 0

theorem run_bufInit (s : DState) (n : ℕ) : ∃ f : ℕ → SectorBuf,
    run actSem (upto (fun i => step (.setUsed i false)) n) s = .ok ((), { s with buf := f }) ∧
      (∀ i < n, (f i).used = false) ∧ ∀ i, (f i).dirty = (s.buf i).dirty := by
  induction n with
  | zero => exact ⟨s.buf, rfl, fun i hi => absurd hi (Nat.not_lt_zero i), fun _ => rfl⟩
  | succ n ih =>
    obtain ⟨f, hrun, hu, hd⟩ := ih
    refine ⟨Function.update f n { f n with used := false }, ?_, fun i hi => ?_, fun i => ?_⟩
    · rw [upto, run_bind actSem hrun]
      rfl
    · by_cases he : i = n
      · rw [he, Function.update_self]
      · rw [Function.update_of_ne he]
        exact hu i (by omega)
    · by_cases he : i = n
      · rw [he, Function.update_self]
        exact hd n
      · rw [Function.update_of_ne he]
        exact hd i

theorem DState.Fresh.holds {s : DState} (h : s.Fresh) : ∃ s',
    run actSem bufInit s = .ok ((), s') ∧ Holds s.ide.disk s' := by
  obtain ⟨f, hrun, hu, hd⟩ := run_bufInit s 128
  refine ⟨_, hrun, ⟨fun i hi _ hu' => ?_, fun i hi hd' => ?_, fun _ _ _ => rfl⟩, h.ready, ?_⟩
  · exact absurd ((hu i hi).symm.trans hu') Bool.false_ne_true
  · exact absurd ((h.clean i).symm.trans ((hd i).symm.trans hd')) Bool.false_ne_true
  · exact h.idle.trans_le (Nat.zero_le _)

/-- A write-back at the end of a run. -/
theorem run_runIde_writeback {p : ℕ} : ∀ (cs : List IdeCall) {L : ℕ → Byte} {s : DState},
    Holds L s → ∃ s', run actSem (runIde (p + 1) (cs ++ [.writeback])) s =
      .ok ((flatIde cs L).1 ++ [[]], s') ∧ s'.ide.disk = (flatIde cs L).2
  | [], L, s, h => by
    obtain ⟨s', hrun, -, hd⟩ := run_writeback (p := p) h
    have hcall : run actSem (ideCall (p + 1) .writeback) s = .ok ([], s') := run_bind actSem hrun
    exact ⟨s', by rw [List.nil_append, runIde, run_bind actSem hcall]; rfl, hd⟩
  | c :: cs, L, s, h => by
    obtain ⟨t, ht, hholds⟩ := run_ideCall (p := p) h c
    obtain ⟨s', hs', hd⟩ := run_runIde_writeback cs hholds
    exact ⟨s', by rw [List.cons_append, runIde, run_bind actSem ht, run_bind actSem hs']; rfl, hd⟩

/-- Kernel and emulator before `buf_init`. -/
structure PState.Fresh (s : PState) : Prop where
  disk : s.view.Fresh
  mapped : s.pio.HasIde

/-- **The buffers and the device are a byte-addressed disk.** No wait is
endless and no assertion of the device fails; each read delivers the bytes last
written, right after a write-back the image is the content, and each command
seeks to the sector that was asked for. -/
theorem runIde_eq_flat {s : PState} (h : s.Fresh) (p : ℕ) (cs : List IdeCall) :
    (∃ s', run portSem (do bufInit; runIde (p + 1) cs) s =
      .ok ((flatIde cs s.pio.dev.disk).1, s')) ∧
    (∃ s', run portSem (do bufInit; runIde (p + 1) (cs ++ [.writeback])) s =
      .ok ((flatIde cs s.pio.dev.disk).1 ++ [[]], s') ∧
        s'.pio.dev.disk = (flatIde cs s.pio.dev.disk).2) ∧
    ∀ t : PState, t.pio.HasIde → t.view.ide.Ready → ∀ sector : Word, sector.toNat < 2 ^ 23 →
      ∀ cmd : Byte, cmd = 0x20 ∨ cmd = 0x30 →
        ∃ t', run portSem (do idePrepare (p + 1) sector; step (.outByte 7 cmd)) t = .ok ((), t') ∧
          t'.pio.dev.pos = 512 * sector.toNat := by
  obtain ⟨t, hinit, hholds⟩ := h.disk.holds
  have hall : ∀ cs, InIde (do bufInit; runIde (p + 1) cs) :=
    fun cs => InIde.bufInit.bind fun _ => InIde.runIde (p + 1) cs
  refine ⟨?_, ?_, fun u hm hu sector hs cmd hc => ?_⟩
  · obtain ⟨t', hrun, -⟩ := run_runIde (p := p) cs hholds
    obtain ⟨s', hs', -⟩ := run_portSem h.mapped (hall cs) ((run_bind actSem hinit).trans hrun)
    exact ⟨s', hs'⟩
  · obtain ⟨t', hrun, hd⟩ := run_runIde_writeback (p := p) cs hholds
    obtain ⟨s', hs', rfl, -⟩ := run_portSem h.mapped (hall _) ((run_bind actSem hinit).trans hrun)
    exact ⟨s', hs', hd⟩
  · obtain ⟨d, hrun, hpos, -⟩ := run_command hu p hs hc
    have hcmd : InIde (do idePrepare (p + 1) sector; step (.outByte 7 cmd)) :=
      (InIde.idePrepare _ _).bind fun _ => InIde.outByte (by norm_num) _
    obtain ⟨t', ht', hview, -⟩ := run_portSem hm hcmd hrun
    refine ⟨t', ht', ?_⟩
    calc t'.pio.dev.pos = t'.view.ide.pos := rfl
      _ = d.pos := by rw [hview]
      _ = 512 * sector.toNat := hpos

/-- `bootDisk` behind the emulator's ports. -/
def bootPorts : PState where
  buf := bootDisk.buf
  counter := 0
  pio := { space := fun n => if n = 0x1F7 then 0x40 else 0, maps := [ideMap], dev := ⟨0, 0, false, fun _ => 0⟩ }

/-- A write across two sectors, read back from the second. -/
theorem runIde_eq_flat_crossing :
    let cs := [IdeCall.write (fun i => BitVec.ofNat 8 i) 510 4, .read 512 2]
    (∃ s', run portSem (do bufInit; runIde (0 + 1) cs) bootPorts =
      .ok ((flatIde cs fun _ => 0).1, s')) ∧ (flatIde cs fun _ => 0).1 = [[], [2, 3]] :=
  ⟨(runIde_eq_flat (s := bootPorts)
    ⟨⟨fun _ => rfl, rfl, rfl⟩, [], [], rfl, fun _ h => nomatch h⟩ 0
    [IdeCall.write (fun i => BitVec.ofNat 8 i) 510 4, .read 512 2]).1, by decide⟩

end Nemu
