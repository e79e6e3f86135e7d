/-
# The disk cache under its timer handler

`ide_writeback` may run between any two port accesses or buffer updates of the
driver. It is tolerated except while it finds a dirty buffer at a point where
the driver is in the middle of a command, or has replaced the content of a
dirty buffer and not yet its sector number: at every other point the buffers
and the disk together hold the logical content, before and after it
(`Coh`, `ideWriteback_spec`).

Key definitions: `Coh`, `Act.Harmful`, `TickOk`, `flatCalls`.
Key theorems: `ideWriteback_spec`, `wp_bufFetch`, `runCalls_tolerates`,
`runCalls_asserts`.
-/
import Nemu.Kernel.Disk

namespace Nemu

open Bytes Preempt Prog

/-! ### The device, one access at a time -/

/-- The device accepts a command. -/
def Ide.Ready (d : Ide) : Prop := d.port 7 = 0x40 ∧ d.byteCnt ≤ 512

theorem pioRead_status {d : Ide} (h : d.byteCnt ≤ 512) (port : ℕ) (hp : port ≠ 0) :
    pioRead d port 1 = .ok (word (fun i => d.port (port + i)) 1, d) := by
  unfold pioRead ideIoHandler
  rw [if_neg (not_not.mpr h), if_neg Bool.false_ne_true, if_neg fun hc => hp hc.1]
  rfl

/-- One byte on the bus changes one register. -/
theorem outByte_port (port : ℕ → Byte) (p : ℕ) (data : Byte) :
    (fun i => if p ≤ i ∧ i < p + 1 then byte (data.setWidth 32) (i - p) else port i) =
      Function.update port p data := by
  funext i
  rw [Function.update_apply]
  by_cases hi : i = p
  · rw [if_pos (by omega), if_pos hi, hi, Nat.sub_self, byte_setWidth, if_pos rfl]
  · rw [if_neg (by omega), if_neg hi]

/-- A byte written to a register. -/
theorem pioWrite_reg {d : Ide} (h : d.byteCnt ≤ 512) {p : ℕ} (h0 : p ≠ 0) (h7 : p ≠ 7)
    (data : Byte) :
    pioWrite d p 1 (data.setWidth 32) = .ok { d with port := Function.update d.port p data } := by
  unfold pioWrite
  rw [outByte_port]
  unfold ideIoHandler
  rw [if_neg (not_not.mpr h), if_pos rfl, if_neg fun hc => h0 hc.1, if_neg h7]

theorem byte_three_of_lt {w : Word} (h : w.toNat < 2 ^ 24) : byte w 3 = 0 := by
  apply BitVec.eq_of_toNat_eq
  rw [byte, BitVec.toNat_setWidth, BitVec.toNat_ushiftRight, Nat.shiftRight_eq_div_pow]
  change _ = 0
  omega

/-- The bytes of a sector number, as the ports hold them. -/
theorem portSector_of_bytes {port : ℕ → Byte} {sector : Word} (hs : sector.toNat < 2 ^ 23)
    (h3 : port 3 = byte sector 0) (h4 : port 4 = byte sector 1) (h5 : port 5 = byte sector 2)
    (h6 : port 6 = 0xE0 ||| byte sector 3) : portSector port = sector := by
  have hb3 : byte sector 3 = 0 := byte_three_of_lt (by omega)
  have h6' : port 6 &&& 0x1f = 0 := by rw [h6, hb3]; rfl
  have hshl : ∀ (b : Byte) (n i : ℕ), i < 4 → byte (b.setWidth 32 <<< (8 * n)) i =
      if i = n then b else 0 := by
    intro b n i hi
    rw [byte_shl _ _ _ hi, byte_setWidth]
    by_cases h : n ≤ i
    · rw [if_pos h]
      exact if_congr (by omega) rfl rfl
    · rw [if_neg h, if_neg (by omega)]
  apply ext_bytes
  intro i hi
  have hr : portSector port = (port 6 &&& 0x1f).setWidth 32 <<< (8 * 3) |||
      (port 5).setWidth 32 <<< (8 * 2) ||| (port 4).setWidth 32 <<< (8 * 1) |||
      (port 3).setWidth 32 <<< (8 * 0) := by simp [portSector]
  rw [hr, h6', h5, h4, h3, byte_or, byte_or, byte_or, hshl _ _ _ hi, hshl _ _ _ hi, hshl _ _ _ hi,
    hshl _ _ _ hi]
  have hcases : i = 0 ∨ i = 1 ∨ i = 2 ∨ i = 3 := by omega
  rcases hcases with rfl | rfl | rfl | rfl <;> simp [hb3]

/-- The position of a sector in the image. -/
theorem toNat_sector_shl {sector : Word} (hs : sector.toNat < 2 ^ 23) :
    (sector <<< 9).toNat = sector.toNat * 512 := by
  rw [BitVec.toNat_shiftLeft, Nat.shiftLeft_eq]
  omega

/-- The write command. -/
theorem pioWrite_write {d : Ide} (h : d.byteCnt ≤ 512) :
    pioWrite d 7 1 ((0x30 : Byte).setWidth 32) = .ok { d with
      port := Function.update d.port 7 0x30, pos := (portSector d.port <<< 9).toNat, byteCnt := 0,
      ideWrite := true } := by
  unfold pioWrite
  rw [outByte_port]
  simp [ideIoHandler, h, portSector]

/-- The read command. -/
theorem pioWrite_read {d : Ide} (h : d.byteCnt ≤ 512) :
    pioWrite d 7 1 ((0x20 : Byte).setWidth 32) = .ok { d with
      port := Function.update d.port 7 0x40, pos := (portSector d.port <<< 9).toNat, byteCnt := 0,
      ideWrite := false } := by
  unfold pioWrite
  rw [outByte_port]
  simp [ideIoHandler, h, portSector]

/-- Four bytes of a write command. -/
theorem pioWrite_data {d : Ide} (h : d.byteCnt ≤ 512) (hw : d.ideWrite = true) (data : Word) :
    ∃ d', pioWrite d 0 4 data = .ok d' ∧ d'.pos = d.pos + 4 ∧ d'.byteCnt = d.byteCnt + 4 ∧
      d'.ideWrite = true ∧ d'.port 7 = (if d.byteCnt + 4 = 512 then 0x40 else d.port 7) ∧
      ∀ n, d'.disk n = if d.pos ≤ n ∧ n < d.pos + 4 then byte data (n - d.pos) else d.disk n := by
  unfold pioWrite ideIoHandler
  rw [if_neg (not_not.mpr h), if_pos rfl, if_pos ⟨rfl, rfl⟩, if_pos hw]
  refine ⟨_, rfl, rfl, rfl, hw, ?_, fun n => ?_⟩
  · unfold Ide.advance
    by_cases hc : d.byteCnt + 4 = 512
    · simp only [if_pos hc, Function.update_self]
    · simp only [if_neg hc]
      rfl
  · by_cases hn : d.pos ≤ n ∧ n < d.pos + 4
    · simp only [Ide.advance, if_pos hn]
      rw [if_pos ⟨by omega, by omega⟩, Nat.sub_zero]
    · simp only [Ide.advance, if_neg hn]

/-- Four bytes of a read command. -/
theorem pioRead_data {d : Ide} (h : d.byteCnt ≤ 512) (hw : d.ideWrite = false) :
    ∃ d', pioRead d 0 4 = .ok (word (fun i => d.disk (d.pos + i)) 4, d') ∧ d'.pos = d.pos + 4 ∧
      d'.byteCnt = d.byteCnt + 4 ∧ d'.ideWrite = false ∧
      d'.port 7 = (if d.byteCnt + 4 = 512 then 0x40 else d.port 7) ∧ d'.disk = d.disk := by
  unfold pioRead ideIoHandler
  rw [if_neg (not_not.mpr h), if_neg Bool.false_ne_true, if_pos ⟨rfl, rfl⟩,
    if_neg (by rw [hw]; exact Bool.false_ne_true)]
  refine ⟨Ide.advance { d with port := fun i => if i < 4 then d.disk (d.pos + i) else d.port i },
    ?_, rfl, rfl, hw, ?_, rfl⟩
  · refine congrArg (fun v => Except.ok (v, _)) (word_congr fun i hi => ?_)
    have hi7 : i ≠ 7 := by omega
    unfold Ide.advance
    by_cases hc : d.byteCnt + 4 = 512
    · simp only [if_pos hc, Nat.zero_add, Function.update_of_ne hi7, if_pos hi]
    · simp only [if_neg hc, Nat.zero_add, if_pos hi]
  · unfold Ide.advance
    by_cases hc : d.byteCnt + 4 = 512
    · simp only [if_pos hc, Function.update_self]
    · simp only [if_neg hc]
      rfl

/-! ### Commands -/

theorem run_step {α : Type} {a : Act} {k : Unit → Driver α} {s s' : DState} {r : a.Res}
    (h : actSem a s = .ok (r, s')) : run actSem (step a >>= k) s = run actSem (k ()) s' :=
  run_act actSem h

theorem actSem_outByte {s : DState} {port : ℕ} {data : Byte} {d : Ide}
    (h : pioWrite s.ide port 1 (data.setWidth 32) = .ok d) :
    actSem (.outByte port data) s = .ok ((), { s with ide := d }) := by
  change (pioWrite s.ide port 1 (data.setWidth 32) >>= _) = _
  rw [h]
  rfl

theorem getBuf_bind {α : Type} (i : ℕ) (k : SectorBuf → Driver α) :
    getBuf i >>= k = act (Act.getBuf i) k := rfl

theorem step_bind {α : Type} (a : Act) (k : Unit → Driver α) :
    step a >>= k = act a fun _ => k () := rfl

theorem run_getBuf {α : Type} (i : ℕ) (k : SectorBuf → Driver α) (s : DState) :
    run actSem (getBuf i >>= k) s = run actSem (k (s.buf i)) s := rfl

/-- A step that writes a register. -/
theorem run_reg {α : Type} {s : DState} (h : s.ide.byteCnt ≤ 512) {p : ℕ} (h0 : p ≠ 0)
    (h7 : p ≠ 7) (data : Byte) (k : Unit → Driver α) :
    run actSem (step (.outByte p data) >>= k) s = run actSem (k ())
      { s with ide := { s.ide with port := Function.update s.ide.port p data } } :=
  run_step (actSem_outByte (pioWrite_reg h h0 h7 data))

/-- **The rest of the sector number, and a command**: the device seeks to the sector. -/
theorem run_sector {s : DState} {sector : Word} (hs : sector.toNat < 2 ^ 23) (hb : s.ide.byteCnt ≤ 512)
    (h3 : s.ide.port 3 = byte sector 0) : ∃ port, (portSector port <<< 9).toNat = sector.toNat * 512 ∧
      ∀ {α : Type} {cmd : Byte} {d : Ide} (k : Unit → Driver α),
        pioWrite { s.ide with port := port } 7 1 (cmd.setWidth 32) = .ok d →
        run actSem (do
          step (.outByte 4 (byte sector 1))
          step (.outByte 5 (byte sector 2))
          step (.outByte 6 (0xE0 ||| byte sector 3))
          step (.outByte 7 cmd)
          k ()) s = run actSem (k ()) { s with ide := d } := by
  set port4 := Function.update s.ide.port 4 (byte sector 1)
  set port5 := Function.update port4 5 (byte sector 2)
  set port6 := Function.update port5 6 (0xE0 ||| byte sector 3)
  have hsec : portSector port6 = sector :=
    portSector_of_bytes hs (by simpa [port6, port5, port4] using h3) (by simp [port6, port5, port4])
      (by simp [port6, port5]) (by simp [port6])
  refine ⟨port6, by rw [hsec, toNat_sector_shl hs], fun k hcmd => ?_⟩
  -- the registers are written one by one, then the command
  refine (run_reg (p := 4) hb (by norm_num) (by norm_num) _ _).trans ?_
  refine (run_reg (p := 5) (by exact hb) (by norm_num) (by norm_num) _ _).trans ?_
  refine (run_reg (p := 6) (by exact hb) (by norm_num) (by norm_num) _ _).trans ?_
  exact run_step (actSem_outByte hcmd)

theorem actSem_outWord {s : DState} {i k : ℕ} {d : Ide}
    (h : pioWrite s.ide 0 4 (word (fun j => (s.buf i).content (4 * k + j)) 4) = .ok d) :
    actSem (.outWord i k) s = .ok ((), { s with ide := d }) := by
  change (pioWrite s.ide 0 4 (word (fun j => (s.buf i).content (4 * k + j)) 4) >>= _) = _
  rw [h]
  rfl

theorem actSem_inLong {s : DState} {v : Word} {d : Ide} (h : pioRead s.ide 0 4 = .ok (v, d)) :
    actSem .inLong s = .ok (v, { s with ide := d }) := by
  change (pioRead s.ide 0 4 >>= _) = _
  rw [h]
  rfl

/-- A write command from its third sector register on. -/
def writeBlock (i : ℕ) (sector : Word) : Driver Unit := do
  step (.outByte 4 (byte sector 1))
  step (.outByte 5 (byte sector 2))
  step (.outByte 6 (0xE0 ||| byte sector 3))
  step (.outByte 7 0x30)
  upto (fun k => step (.outWord i k)) 128

/-- The registers of a command, up to the third sector register. -/
def prepare (polls : ℕ) (sector : Word) : Driver Unit := do
  waitdisk polls
  step (.outByte 1 0)
  step (.outByte 2 1)
  step (.outByte 3 (byte sector 0))

theorem diskDoWrite_eq (polls i : ℕ) (sector : Word) :
    diskDoWrite polls i sector = prepare polls sector >>= fun _ => writeBlock i sector := by
  simp only [diskDoWrite, idePrepare, prepare, writeBlock, bind_assoc]

/-- The words of a write command go to the disk in order. -/
theorem run_outWords {s : DState} {i b : ℕ} (hpos : s.ide.pos = b) (hcnt : s.ide.byteCnt = 0)
    (hw : s.ide.ideWrite = true) (hst : s.ide.port 7 = 0x30) : ∀ m ≤ 128, ∃ d,
      run actSem (upto (fun k => step (.outWord i k)) m) s = .ok ((), { s with ide := d }) ∧
      d.pos = b + 4 * m ∧ d.byteCnt = 4 * m ∧ d.ideWrite = true ∧
      d.port 7 = (if m = 128 then 0x40 else 0x30) ∧
      ∀ n, d.disk n = if b ≤ n ∧ n < b + 4 * m then (s.buf i).content (n - b)
        else s.ide.disk n
  | 0, _ => ⟨s.ide, rfl, by omega, by omega, hw, hst, fun n => (if_neg (by omega)).symm⟩
  | m + 1, hm => by
    obtain ⟨d, hrun, hp, hc, hdw, hd7, hd⟩ := run_outWords hpos hcnt hw hst m (by omega)
    obtain ⟨d', hw', hp', hc', hdw', hd7', hd'⟩ := pioWrite_data (d := d) (by omega) hdw
      (word (fun j => (s.buf i).content (4 * m + j)) 4)
    refine ⟨d', ?_, by omega, by omega, hdw', ?_, fun n => ?_⟩
    · rw [upto, run_bind actSem hrun]
      exact run_act actSem (actSem_outWord (s := { s with ide := d }) hw')
    · rw [hd7', hd7, hc]
      by_cases h : m + 1 = 128
      · rw [if_pos h, if_pos (by omega)]
      · rw [if_neg h, if_neg (by omega), if_neg (by omega)]
    · rw [hd' n, hd n, hp]
      by_cases h1 : b + 4 * m ≤ n ∧ n < b + 4 * m + 4
      · rw [if_pos h1, if_pos ⟨by omega, by omega⟩, byte_word _ _ _ (by omega), if_pos (by omega),
          show 4 * m + (n - (b + 4 * m)) = n - b by omega]
      · rw [if_neg h1]
        exact if_congr (by omega) rfl rfl

/-- **A write command writes the buffer to its sector.** -/
theorem run_writeBlock {s : DState} {i : ℕ} {sector : Word} (hs : sector.toNat < 2 ^ 23)
    (hb : s.ide.byteCnt ≤ 512) (h3 : s.ide.port 3 = byte sector 0) : ∃ d,
      run actSem (writeBlock i sector) s = .ok ((), { s with ide := d }) ∧ d.Ready ∧
      ∀ n, d.disk n = if n / 512 = sector.toNat then (s.buf i).content (n % 512)
        else s.ide.disk n := by
  obtain ⟨port, hpos, hregs⟩ := run_sector hs hb h3
  have hcmd := hregs (fun _ => upto (fun k => step (.outWord i k)) 128) (pioWrite_write hb)
  rw [hpos] at hcmd
  obtain ⟨d, hrun, -, hc, -, h7, hd⟩ := run_outWords (i := i) (b := sector.toNat * 512)
    (s := { s with ide := { s.ide with
      port := Function.update port 7 0x30, pos := sector.toNat * 512, byteCnt := 0,
      ideWrite := true } }) rfl rfl rfl (by simp) 128 le_rfl
  refine ⟨d, hcmd.trans hrun, ⟨h7, by omega⟩, fun n => ?_⟩
  · rw [hd n]
    by_cases h : n / 512 = sector.toNat
    · rw [if_pos h, if_pos (by omega), show n - sector.toNat * 512 = n % 512 by omega]
    · rw [if_neg h, if_neg (by omega)]

/-- A read command from its third sector register on, up to the last word; the
word is returned. -/
def readBlock (i : ℕ) (sector : Word) : Driver Word := do
  step (.outByte 4 (byte sector 1))
  step (.outByte 5 (byte sector 2))
  step (.outByte 6 (0xE0 ||| byte sector 3))
  step (.outByte 7 0x20)
  upto (fun k => do
    let data ← inLong
    step (.setWord i k data)) 127
  inLong

theorem diskDoRead_eq (polls i : ℕ) (sector : Word) :
    diskDoRead polls i sector = prepare polls sector >>= fun _ =>
      readBlock i sector >>= fun data => step (.setWord i 127 data) := by
  have hlast : upto (fun k => do
      let data ← inLong
      step (.setWord i k data)) 128 = upto (fun k => do
      let data ← inLong
      step (.setWord i k data)) 127 >>= fun _ => inLong >>= fun data =>
        step (.setWord i 127 data) := rfl
  simp only [diskDoRead, idePrepare, prepare, readBlock, bind_assoc, hlast]

/-- The words of a read command come from the disk in order. -/
theorem run_inWords {s : DState} {i b : ℕ} (hpos : s.ide.pos = b) (hcnt : s.ide.byteCnt = 0)
    (hw : s.ide.ideWrite = false) (hst : s.ide.port 7 = 0x40) : ∀ m ≤ 127, ∃ d c,
      run actSem (upto (fun k => do
          let data ← inLong
          step (.setWord i k data)) m) s =
        .ok ((), { s.setBuf i { s.buf i with content := c } with ide := d }) ∧
      d.pos = b + 4 * m ∧ d.byteCnt = 4 * m ∧ d.ideWrite = false ∧ d.port 7 = 0x40 ∧
      d.disk = s.ide.disk ∧ ∀ j < 4 * m, c j = s.ide.disk (b + j)
  | 0, _ => by
    refine ⟨s.ide, (s.buf i).content, ?_, by omega, by omega, hw, hst, rfl, fun j hj => by omega⟩
    have hself : s.setBuf i { s.buf i with content := (s.buf i).content } = s :=
      congrArg (fun f => { s with buf := f }) (Function.update_eq_self i s.buf)
    rw [hself]
    rfl
  | m + 1, hm => by
    obtain ⟨d, c, hrun, hp, hc, hdw, hd7, hd, hcj⟩ := run_inWords hpos hcnt hw hst m (by omega)
    obtain ⟨d', hr, hp', hc', hdw', hd7', hd'⟩ := pioRead_data (d := d) (by omega) hdw
    set v := word (fun j => d.disk (d.pos + j)) 4
    set t : DState := { s.setBuf i { s.buf i with content := c } with ide := d }
    have hti : t.buf i = { s.buf i with content := c } := Function.update_self ..
    refine ⟨d', fun n => if 4 * m ≤ n ∧ n < 4 * m + 4 then byte v (n - 4 * m) else c n, ?_,
      by omega, by omega, hdw', ?_, hd'.trans hd, fun j hj => ?_⟩
    · rw [upto, run_bind actSem hrun]
      refine (run_act actSem (actSem_inLong (s := t) hr)).trans ?_
      refine (run_act actSem (a := .setWord i m v) (s := { t with ide := d' }) rfl).trans ?_
      change Except.ok ((), { t with
        buf := Function.update t.buf i { t.buf i with content := _ }, ide := d' }) = _
      rw [hti]
      simp only [t, DState.setBuf, Function.update_idem]
    · rw [hd7', if_neg (by omega), hd7]
    · dsimp only
      by_cases hj' : 4 * m ≤ j
      · rw [if_pos ⟨hj', by omega⟩, byte_word _ _ _ (by omega), if_pos (by omega), hd, hp,
          show b + 4 * m + (j - 4 * m) = b + j by omega]
      · rw [if_neg (by omega), hcj j (by omega)]

/-- **A read command reads the sector into the buffer, all but the last word.** -/
theorem run_readBlock {s : DState} {i : ℕ} {sector : Word} (hs : sector.toNat < 2 ^ 23)
    (hb : s.ide.byteCnt ≤ 512) (h3 : s.ide.port 3 = byte sector 0) : ∃ v d c,
      run actSem (readBlock i sector) s =
        .ok (v, { s.setBuf i { s.buf i with content := c } with ide := d }) ∧ d.Ready ∧
      d.disk = s.ide.disk ∧ (∀ j < 508, c j = s.ide.disk (sector.toNat * 512 + j)) ∧
      ∀ j < 4, byte v j = s.ide.disk (sector.toNat * 512 + 508 + j) := by
  obtain ⟨port, hpos, hregs⟩ := run_sector hs hb h3
  have hcmd := hregs (fun _ => upto (fun k => do
      let data ← inLong
      step (.setWord i k data)) 127 >>= fun _ => inLong) (pioWrite_read hb)
  rw [hpos] at hcmd
  obtain ⟨d, c, hrun, hp, hc, hw, h7, hd, hcj⟩ := run_inWords (i := i) (b := sector.toNat * 512)
    (s := { s with ide := { s.ide with
      port := Function.update port 7 0x40, pos := sector.toNat * 512, byteCnt := 0,
      ideWrite := false } }) rfl rfl rfl (by simp) 127 le_rfl
  obtain ⟨d', hr, hp', hc', hw', h7', hd'⟩ := pioRead_data (d := d) (by omega) hw
  refine ⟨word (fun j => d.disk (d.pos + j)) 4, d', c, ?_, ⟨?_, by omega⟩, hd'.trans hd, hcj,
    fun j hj => ?_⟩
  · refine hcmd.trans ?_
    rw [run_bind actSem hrun]
    refine (run_act actSem (k := ret) (actSem_inLong hr)).trans ?_
    rfl
  · rw [h7', if_pos (by omega)]
  · rw [byte_word _ _ _ hj, if_pos hj, hd, hp]

/-! ### The safe part of a command -/

theorem actSem_status {s : DState} (h : s.ide.byteCnt ≤ 512) :
    actSem (.inByte 7) s = .ok (s.ide.port 7, s) := by
  change (pioRead s.ide 7 1 >>= _) = _
  rw [pioRead_status h 7 (by norm_num)]
  change Except.ok (byte (word _ 1) 0, s) = _
  rw [byte_word _ _ _ (by norm_num), if_pos one_pos]
  rfl

/-- `waitdisk` ends at its first poll when the device is ready. -/
theorem waitdisk_succ (n : ℕ) : waitdisk (n + 1) = act (Act.inByte 7) fun status =>
    if (status : Byte) &&& (0x80 ||| 0x40) ≠ 0x40 then waitdisk n else ret () := rfl

theorem run_prepare {s : DState} (h : s.ide.Ready) (n : ℕ) (sector : Word) : ∃ d,
    run actSem (prepare (n + 1) sector) s = .ok ((), { s with ide := d }) ∧ d.Ready ∧
      d.port 3 = byte sector 0 ∧ d.disk = s.ide.disk := by
  set port2 := Function.update (Function.update s.ide.port 1 0) 2 1
  refine ⟨{ s.ide with port := Function.update port2 3 (byte sector 0) }, ?_,
    ⟨by simpa [port2] using h.1, h.2⟩, by simp, rfl⟩
  unfold prepare
  rw [waitdisk_succ, act_bind]
  refine (run_act actSem (actSem_status h.2)).trans ?_
  have h7 : ¬ s.ide.port 7 &&& (0x80 ||| 0x40) ≠ 0x40 := by rw [h.1]; decide
  rw [if_neg h7, ret_bind]
  refine (run_reg (p := 1) h.2 (by norm_num) (by norm_num) _ _).trans ?_
  refine (run_reg (p := 2) (by exact h.2) (by norm_num) (by norm_num) _ _).trans ?_
  exact run_act actSem (actSem_outByte (pioWrite_reg (by exact h.2) (by norm_num) (by norm_num) _))

/-! ### The invariant -/

/-- The buffer is the one for its sector, and has the logical content. -/
def SectorBuf.Holds (L : ℕ → Byte) (i : ℕ) (b : SectorBuf) : Prop :=
  b.sector.toNat % 128 = i ∧ b.sector.toNat < 2 ^ 23 ∧
    ∀ j < 512, b.content j = L (b.sector.toNat * 512 + j)

/-- Buffers and disk hold the logical content `L`: the used buffers, and the
disk where no dirty buffer is newer. Buffer `x` is being filled, the disk is
up to date with buffer `y`, and the bytes `M` are being written. -/
structure Coh (L : ℕ → Byte) (M : ℕ → Prop) (x y : ℕ) (s : DState) : Prop where
  slots : ∀ i < 128, i ≠ x → (s.buf i).used = true → (s.buf i).Holds L i
  dirty : ∀ i < 128, (s.buf i).dirty = true → (s.buf i).used = true
  disk : ∀ n, ¬ M n → (∀ i < 128, i ≠ y → (s.buf i).dirty = true →
    (s.buf i).sector.toNat ≠ n / 512) → s.ide.disk n = L n

/-- No buffer changed, except that dirty ones may be clean. -/
structure SameBufs (s s' : DState) : Prop where
  used : ∀ i, (s'.buf i).used = (s.buf i).used
  sector : ∀ i, (s'.buf i).sector = (s.buf i).sector
  content : ∀ i, (s'.buf i).content = (s.buf i).content
  dirty : ∀ i, (s'.buf i).dirty = true → (s.buf i).dirty = true

def AnyDirty (s : DState) : Prop := ∃ i < 128, (s.buf i).dirty = true

instance : DecidablePred AnyDirty := fun s =>
  inferInstanceAs (Decidable (∃ i < 128, (s.buf i).dirty = true))

/-- The next tick writes back. -/
def Due (s : DState) : Prop := s.counter + 1 = 100

instance : DecidablePred Due := fun s => inferInstanceAs (Decidable (s.counter + 1 = 100))

/-! ### The handler -/

section Handler

variable {L : ℕ → Byte} {M : ℕ → Prop} {x y : ℕ} {s : DState}

/-- A buffer is written to its sector. -/
theorem run_diskDoWrite (hr : s.ide.Ready) {i : ℕ} {sector : Word} (hs : sector.toNat < 2 ^ 23)
    (p : ℕ) : ∃ d, run actSem (diskDoWrite (p + 1) i sector) s = .ok ((), { s with ide := d }) ∧
      d.Ready ∧ ∀ n, d.disk n = if n / 512 = sector.toNat then (s.buf i).content (n % 512)
        else s.ide.disk n := by
  obtain ⟨d, hrun, hrd, h3, hd⟩ := run_prepare hr p sector
  obtain ⟨d', hrun', hrd', hd'⟩ := run_writeBlock (s := { s with ide := d }) (i := i) hs hrd.2 h3
  refine ⟨d', ?_, hrd', fun n => ?_⟩
  · rw [diskDoWrite_eq, run_bind actSem hrun, hrun']
  · rw [hd' n, hd]

/-- One round of `buf_writeback`. -/
def writebackSlot (polls i : ℕ) : Driver Unit := do
  let ptr ← getBuf i
  if ptr.dirty = true then do
    diskDoWrite polls i ptr.sector
    step (.setDirty i false)
  else return ()

theorem run_writebackSlot_clean {i : ℕ} (h : (s.buf i).dirty ≠ true) (polls : ℕ) :
    run actSem (writebackSlot polls i) s = .ok ((), s) := by
  rw [writebackSlot, run_getBuf, if_neg h]
  rfl

/-- Without a dirty buffer there is nothing to do. -/
theorem run_bufWriteback_clean (h : ¬ AnyDirty s) (polls : ℕ) : ∀ m ≤ 128,
    run actSem (upto (writebackSlot polls) m) s = .ok ((), s)
  | 0, _ => rfl
  | m + 1, hm => by
    rw [upto, run_bind actSem (run_bufWriteback_clean h polls m (by omega))]
    exact run_writebackSlot_clean (fun hd => h ⟨m, by omega, hd⟩) polls

/-- The first `m` buffers are written back. -/
def cleaned (s : DState) (m : ℕ) (d : Ide) : DState :=
  { s with buf := fun i => if i < m then { s.buf i with dirty := false } else s.buf i, ide := d }

theorem cleaned_succ {m : ℕ} {d d' : Ide} {b : SectorBuf}
    (hb : b = { s.buf m with dirty := false }) :
    ({ (cleaned s m d).setBuf m b with ide := d' } : DState) = cleaned s (m + 1) d' := by
  have hf : Function.update (cleaned s m d).buf m b = (cleaned s (m + 1) d').buf := by
    funext i
    rw [Function.update_apply]
    unfold cleaned
    by_cases hi : i = m
    · simp only [hi, hb, Nat.lt_succ_self, if_true]
    · simp only [if_neg hi]
      exact if_congr (by omega) rfl rfl
  exact congrArg (fun f => ({ buf := f, counter := s.counter, ide := d' } : DState)) hf

theorem run_bufWriteback (hr : s.ide.Ready)
    (hslot : ∀ i < 128, (s.buf i).dirty = true → (s.buf i).Holds L i)
    (hdisk : ∀ n, ¬ M n → (∀ i < 128, (s.buf i).dirty = true → (s.buf i).sector.toNat ≠ n / 512) →
      s.ide.disk n = L n) (p : ℕ) : ∀ m ≤ 128, ∃ d,
    run actSem (upto (writebackSlot (p + 1)) m) s = .ok ((), cleaned s m d) ∧ d.Ready ∧
      ∀ n, ¬ M n → (∀ i < 128, m ≤ i → (s.buf i).dirty = true →
        (s.buf i).sector.toNat ≠ n / 512) → d.disk n = L n
  | 0, _ => ⟨s.ide, rfl, hr, fun n hn h => hdisk n hn fun i hi => h i hi (Nat.zero_le i)⟩
  | m + 1, hm => by
    obtain ⟨d, hrun, hrd, hd⟩ := run_bufWriteback hr hslot hdisk p m (by omega)
    have hbuf : (cleaned s m d).buf m = s.buf m := if_neg (lt_irrefl m)
    rw [upto, run_bind actSem hrun]
    cases hdm : (s.buf m).dirty with
    | false =>
      have hc : (cleaned s m d) = cleaned s (m + 1) d := by
        rw [← cleaned_succ (d := d) (b := s.buf m) (by rw [← hdm])]
        have hself := Function.update_eq_self m (cleaned s m d).buf
        rw [hbuf] at hself
        exact congrArg (fun f => ({ buf := f, counter := s.counter, ide := d } : DState)) hself.symm
      refine ⟨d, ?_, hrd, fun n hn h => hd n hn fun i hi hmi hdi => ?_⟩
      · rw [run_writebackSlot_clean (by rw [hbuf, hdm]; exact Bool.false_ne_true), hc]
      · refine h i hi (lt_of_le_of_ne hmi fun he => ?_) hdi
        rw [← he, hdm] at hdi
        exact Bool.false_ne_true hdi
    | true =>
      obtain ⟨-, hs23, hcont⟩ := hslot m (by omega) hdm
      obtain ⟨d', hw, hrd', hd'⟩ := run_diskDoWrite (s := cleaned s m d) hrd (i := m) hs23 p
      refine ⟨d', ?_, hrd', fun n hn h => ?_⟩
      · rw [writebackSlot, run_getBuf, hbuf, if_pos hdm, run_bind actSem hw]
        refine (run_act actSem (k := fun _ => ret ()) (a := .setDirty m false) rfl).trans ?_
        exact congrArg (fun t => Except.ok ((), t)) (cleaned_succ (d := d) (by rw [hbuf]))
      · rw [hd' n, hbuf]
        by_cases hsec : n / 512 = (s.buf m).sector.toNat
        · rw [if_pos hsec, hcont _ (Nat.mod_lt _ (by norm_num)), ← hsec, Nat.div_add_mod']
        · rw [if_neg hsec]
          refine hd n hn fun i hi hmi hdi => ?_
          rcases hmi.lt_or_eq with hlt | rfl
          · exact h i hi hlt hdi
          · exact fun he => hsec he.symm

/-- A tick that finds nothing to write back only counts. -/
theorem ideWriteback_quiet (h : ¬ (Due s ∧ AnyDirty s)) (polls : ℕ) :
    ∃ c, ideWriteback polls s = .ok { s with counter := c } := by
  unfold ideWriteback
  by_cases hd : Due s
  · have hrun : run actSem (bufWriteback polls) { s with counter := s.counter + 1 } =
        .ok ((), { s with counter := s.counter + 1 }) :=
      run_bufWriteback_clean (s := { s with counter := s.counter + 1 })
        (fun ha => h ⟨hd, ha⟩) polls 128 le_rfl
    refine ⟨0, ?_⟩
    simp only [if_pos (show s.counter + 1 = 100 from hd), hrun]
    rfl
  · exact ⟨s.counter + 1, by simp only [if_neg (show ¬ s.counter + 1 = 100 from hd)]; rfl⟩

/-- **A tick keeps the buffers and the disk coherent**, if the buffer that is
being filled is clean. -/
theorem ideWriteback_spec (h : Coh L M x y s) (hr : s.ide.Ready)
    (hx : x < 128 → (s.buf x).dirty ≠ true) (p : ℕ) : ∃ s', ideWriteback (p + 1) s = .ok s' ∧
      Coh L M x y s' ∧ s'.ide.Ready ∧ SameBufs s s' := by
  by_cases hd : Due s
  · obtain ⟨d, hrun, hrd, hdisk⟩ := run_bufWriteback (s := { s with counter := s.counter + 1 })
      (L := L) (M := M) hr (fun i hi hdi => h.slots i hi (fun he => hx (he ▸ hi) (he ▸ hdi))
        (h.dirty i hi hdi)) (fun n hn hno => h.disk n hn fun i hi _ => hno i hi) p 128 le_rfl
    have hrun' : run actSem (bufWriteback (p + 1)) { s with counter := s.counter + 1 } =
      .ok ((), cleaned { s with counter := s.counter + 1 } 128 d) := hrun
    have hbuf : ∀ i, (cleaned { s with counter := s.counter + 1 } 128 d).buf i =
        if i < 128 then { s.buf i with dirty := false } else s.buf i := fun _ => rfl
    have hsame : SameBufs s { cleaned { s with counter := s.counter + 1 } 128 d with counter := 0 } := by
      refine ⟨fun i => ?_, fun i => ?_, fun i => ?_, fun i hi => ?_⟩ <;>
        simp only [hbuf] at * <;> split_ifs at * <;> first | rfl | assumption
    refine ⟨_, ?_, ⟨fun i hi hix hu => ?_, fun i hi hdi => ?_, fun n hn _ => ?_⟩, hrd, hsame⟩
    · unfold ideWriteback
      simp only [if_pos (show s.counter + 1 = 100 from hd), hrun']
      rfl
    · rw [hsame.used] at hu
      obtain ⟨h1, h2, h3⟩ := h.slots i hi hix hu
      unfold SectorBuf.Holds
      rw [hsame.sector, hsame.content]
      exact ⟨h1, h2, h3⟩
    · rw [hsame.used]
      exact h.dirty i hi (hsame.dirty i hdi)
    · exact hdisk n hn fun i hi h128 => absurd hi (by omega)
  · obtain ⟨c, hq⟩ := ideWriteback_quiet (fun hc => hd hc.1) (p + 1)
    exact ⟨_, hq, ⟨h.slots, h.dirty, h.disk⟩, hr, fun _ => rfl, fun _ => rfl, fun _ => rfl,
      fun _ hi => hi⟩

end Handler

/-! ### Where a tick does harm -/

/-- A write-back before this action would break in: in the middle of a command
always, and while buffer `i` is being replaced if its old content is dirty. -/
def Act.Harmful : Act → DState → Prop
  | .outByte port _, s => 4 ≤ port ∧ AnyDirty s
  | .inLong, s => AnyDirty s
  | .outWord _ _, s => AnyDirty s
  | .setWord i k _, s => if k < 127 then AnyDirty s else (s.buf i).dirty = true
  | .setUsed i _, s => (s.buf i).dirty = true
  | .setSector i _, s => (s.buf i).dirty = true
  | _, _ => False

instance (s : DState) : ∀ a : Act, Decidable (a.Harmful s)
  | .outByte port _ => inferInstanceAs (Decidable (4 ≤ port ∧ AnyDirty s))
  | .inLong | .outWord .. => inferInstanceAs (Decidable (AnyDirty s))
  | .setWord i k _ => inferInstanceAs (Decidable (if k < 127 then AnyDirty s else
      (s.buf i).dirty = true))
  | .setUsed i _ | .setSector i _ => inferInstanceAs (Decidable ((s.buf i).dirty = true))
  | .inByte _ | .spin | .getBuf _ | .setByte .. | .setDirty .. => inferInstanceAs (Decidable False)

/-- A tick before action `a` is no write-back that does harm. -/
def TickOk (a : Act) (s : DState) : Prop := ¬ (Due s ∧ a.Harmful s)

instance (a : Act) (s : DState) : Decidable (TickOk a s) :=
  inferInstanceAs (Decidable (¬ (Due s ∧ a.Harmful s)))

/-- The action is in the middle of a command. -/
def Act.Busy (a : Act) : Prop := ∀ s, AnyDirty s → a.Harmful s

/-- No action looks at the tick counter. -/
theorem actSem_counter {a : Act} {s s' : DState} {r : a.Res} (c : Word)
    (h : actSem a s = .ok (r, s')) :
    actSem a { s with counter := c } = .ok (r, { s' with counter := c }) := by
  cases a with
  | inByte port =>
    change (pioRead s.ide port 1 >>= _) = _ at h
    change (pioRead s.ide port 1 >>= _) = _
    cases hd : pioRead s.ide port 1 with
    | error e => rw [hd] at h; nomatch h
    | ok v =>
      rw [hd] at h
      obtain ⟨rfl, rfl⟩ := Prod.mk.inj (Except.ok.inj h)
      rfl
  | outByte port data =>
    change (pioWrite s.ide port 1 (data.setWidth 32) >>= _) = _ at h
    change (pioWrite s.ide port 1 (data.setWidth 32) >>= _) = _
    cases hd : pioWrite s.ide port 1 (data.setWidth 32) with
    | error e => rw [hd] at h; nomatch h
    | ok v =>
      rw [hd] at h
      obtain ⟨rfl, rfl⟩ := Prod.mk.inj (Except.ok.inj h)
      rfl
  | inLong =>
    change (pioRead s.ide 0 4 >>= _) = _ at h
    change (pioRead s.ide 0 4 >>= _) = _
    cases hd : pioRead s.ide 0 4 with
    | error e => rw [hd] at h; nomatch h
    | ok v =>
      rw [hd] at h
      obtain ⟨rfl, rfl⟩ := Prod.mk.inj (Except.ok.inj h)
      rfl
  | outWord i k =>
    change (pioWrite s.ide 0 4 (word (fun j => (s.buf i).content (4 * k + j)) 4) >>= _) = _ at h
    change (pioWrite s.ide 0 4 (word (fun j => (s.buf i).content (4 * k + j)) 4) >>= _) = _
    cases hd : pioWrite s.ide 0 4 (word (fun j => (s.buf i).content (4 * k + j)) 4) with
    | error e => rw [hd] at h; nomatch h
    | ok v =>
      rw [hd] at h
      obtain ⟨rfl, rfl⟩ := Prod.mk.inj (Except.ok.inj h)
      rfl
  | spin => nomatch h
  | _ =>
    obtain ⟨rfl, rfl⟩ := Prod.mk.inj (Except.ok.inj h)
    rfl

section Preempted

variable {L : ℕ → Byte} {M : ℕ → Prop} {x y : ℕ} {s : DState} {p : ℕ}

/-- **The middle of a command is as if it ran alone.** -/
theorem wp_busy {α : Type} {q : Driver α} {s' : DState} {a : α} (hq : q.All Act.Busy)
    (hrun : run actSem q s = .ok (a, s')) :
    wp actSem (ideWriteback p) TickOk q (fun b t => b = a ∧ ∃ c, t = { s' with counter := c }) s := by
  refine wp_of_run (E := fun s t => ∃ c, t = { s with counter := c }) (H := Act.Busy)
    ?_ ?_ ?_ hq hrun ⟨s.counter, rfl⟩
  · rintro s t u ⟨c, rfl⟩ ⟨c', rfl⟩
    exact ⟨c', rfl⟩
  · intro a s ha hok
    obtain ⟨c, hc⟩ := ideWriteback_quiet (fun hd => hok ⟨hd.1, ha s hd.2⟩) p
    exact ⟨_, hc, c, rfl⟩
  · rintro a s t r s' - ⟨c, rfl⟩ h
    exact ⟨_, actSem_counter c h, c, rfl⟩

theorem busy_step {a : Act} (h : a.Busy) : (step a).All Act.Busy := ⟨h, fun _ => trivial⟩

theorem busy_outByte {n : ℕ} (h : 4 ≤ n) (data : Byte) : (step (.outByte n data)).All Act.Busy :=
  busy_step fun _ ha => And.intro h ha

theorem busy_sector {α : Type} (sector : Word) (cmd : Byte) {q : Driver α} (h : q.All Act.Busy) : (do
    step (.outByte 4 (byte sector 1))
    step (.outByte 5 (byte sector 2))
    step (.outByte 6 (0xE0 ||| byte sector 3))
    step (.outByte 7 cmd)
    q).All Act.Busy := by
  refine (busy_outByte (by norm_num) _).bind fun _ => ?_
  refine (busy_outByte (by norm_num) _).bind fun _ => ?_
  refine (busy_outByte (by norm_num) _).bind fun _ => ?_
  refine (busy_outByte (by norm_num) _).bind fun _ => ?_
  exact h

theorem busy_writeBlock (i : ℕ) (sector : Word) : (writeBlock i sector).All Act.Busy := by
  have hwords := All.upto (fun k => busy_step (a := .outWord i k) fun _ h => h)
  unfold writeBlock
  generalize 128 = n
  exact busy_sector sector _ (hwords n)

/-- `body 0`, …, `body (n - 1)`, where each satisfies `H`. -/
theorem all_upto_lt {H : Act → Prop} {body : ℕ → Driver Unit} : ∀ n, (∀ i < n, (body i).All H) →
    (upto body n).All H
  | 0, _ => trivial
  | n + 1, h => (all_upto_lt n fun i hi => h i (by omega)).bind fun _ => h n (by omega)

theorem busy_readBlock (i : ℕ) (sector : Word) : (readBlock i sector).All Act.Busy := by
  have hwords : ∀ n ≤ 127, (upto (fun k => do
      let data ← inLong
      step (.setWord i k data)) n).All Act.Busy := by
    intro n hn
    refine all_upto_lt n fun k hk => And.intro (fun _ h => h) fun v => busy_step fun s h => ?_
    change (if k < 127 then AnyDirty s else _)
    rw [if_pos (by omega)]
    exact h
  have hlast : inLong.All Act.Busy := And.intro (fun _ h => h) fun _ => trivial
  unfold readBlock
  generalize hn : 127 = n
  exact busy_sector sector _ ((hwords n (by omega)).bind fun _ => hlast)

/-- **The registers of a command**, from an assertion about buffers and disk
that ticks keep. -/
theorem wp_prepare {P : DState → Prop}
    (hP : ∀ s (d : Ide), P s → d.disk = s.ide.disk → P { s with ide := d })
    (htick : ∀ s, P s → s.ide.Ready →
      ∃ s', ideWriteback (p + 1) s = .ok s' ∧ P s' ∧ s'.ide.Ready)
    (sector : Word) (h : P s) (hr : s.ide.Ready) :
    wp actSem (ideWriteback (p + 1)) TickOk (prepare (p + 1) sector)
      (fun _ s => P s ∧ s.ide.Ready ∧ s.ide.port 3 = byte sector 0) s := by
  have hkeep : ∀ (a : Act) s, P s ∧ s.ide.Ready → TickOk a s →
      ∃ s', ideWriteback (p + 1) s = .ok s' ∧ P s' ∧ s'.ide.Ready := fun _ s hs _ =>
    htick s hs.1 hs.2
  unfold prepare
  rw [waitdisk_succ, act_bind]
  refine wp_act (P := fun s => P s ∧ s.ide.Ready) ⟨h, hr⟩ (hkeep _) fun s hs => ?_
  refine ⟨_, s, actSem_status hs.2.2, ?_⟩
  have h7 : ¬ s.ide.port 7 &&& (0x80 ||| 0x40) ≠ 0x40 := by rw [hs.2.1]; decide
  rw [if_neg h7]
  -- three registers; none of them is the status
  refine wp_act (P := fun s => P s ∧ s.ide.Ready) hs (hkeep _) fun s hs => ?_
  refine ⟨_, _, actSem_outByte (pioWrite_reg (p := 1) hs.2.2 (by norm_num) (by norm_num) _), ?_⟩
  refine wp_act (P := fun s => P s ∧ s.ide.Ready) ⟨hP _ _ hs.1 rfl, by simpa using hs.2.1, hs.2.2⟩
    (hkeep _) fun s hs => ?_
  refine ⟨_, _, actSem_outByte (pioWrite_reg (p := 2) hs.2.2 (by norm_num) (by norm_num) _), ?_⟩
  refine wp_act (P := fun s => P s ∧ s.ide.Ready) ⟨hP _ _ hs.1 rfl, by simpa using hs.2.1, hs.2.2⟩
    (hkeep _) fun s hs => ?_
  refine ⟨_, _, actSem_outByte (pioWrite_reg (p := 3) hs.2.2 (by norm_num) (by norm_num) _), ?_⟩
  exact ⟨hP _ _ hs.1 rfl, ⟨by simpa using hs.2.1, hs.2.2⟩, by simp⟩

/-! ### The driver under the handler -/

/-- Buffer `i` is in use for the sector. -/
def At (i : ℕ) (sector : Word) (s : DState) : Prop :=
  (s.buf i).used = true ∧ (s.buf i).sector = sector

theorem SameBufs.at {i : ℕ} {sector : Word} {s' : DState} (hb : SameBufs s s')
    (h : At i sector s) : At i sector s' :=
  ⟨(hb.used i).trans h.1, (hb.sector i).trans h.2⟩

/-- No byte is being written. -/
def NoByte : ℕ → Prop := fun _ => False

/-- A tick between commands keeps what is known about one buffer, too. -/
theorem tick_at {i : ℕ} {sector : Word} (h : Coh L M 128 y s ∧ At i sector s) (hr : s.ide.Ready) :
    ∃ s', ideWriteback (p + 1) s = .ok s' ∧ (Coh L M 128 y s' ∧ At i sector s') ∧ s'.ide.Ready := by
  obtain ⟨s', hs', hc, hr', hb⟩ := ideWriteback_spec h.1 hr (fun hx => absurd hx (by omega)) p
  exact ⟨s', hs', ⟨hc, hb.at h.2⟩, hr'⟩

/-- A victim is written back, and then the disk is up to date with it. -/
theorem wp_victim {i : ℕ} {sector : Word} (hi : i < 128) (h : Coh L M 128 128 s)
    (hr : s.ide.Ready) (hat : At i sector s) :
    wp actSem (ideWriteback (p + 1)) TickOk (diskDoWrite (p + 1) i sector)
      (fun _ s => Coh L M 128 i s ∧ s.ide.Ready) s := by
  have hprep := wp_prepare (p := p) (P := fun s => Coh L M 128 128 s ∧ At i sector s)
    (fun s d hs hd => ⟨⟨hs.1.slots, hs.1.dirty, fun n hn hno => by
      rw [← hs.1.disk n hn hno]; exact congrFun hd n⟩, hs.2⟩)
    (fun s hs hr => tick_at hs hr) sector ⟨h, hat⟩ hr
  rw [diskDoWrite_eq]
  refine wp_bind (wp_mono (fun _ s hs => ?_) hprep)
  obtain ⟨⟨hc, hat⟩, hr, h3⟩ := hs
  obtain ⟨-, h23, hcont⟩ := hc.slots i hi (by omega) hat.1
  rw [hat.2] at h23 hcont
  obtain ⟨d, hrun, hrd, hd⟩ := run_writeBlock (i := i) h23 hr.2 h3
  refine wp_mono ?_ (wp_busy (busy_writeBlock i sector) hrun)
  rintro _ t ⟨-, c, rfl⟩
  refine ⟨⟨hc.slots, hc.dirty, fun n hn hno => ?_⟩, hrd⟩
  change d.disk n = L n
  rw [hd n]
  by_cases hs : n / 512 = sector.toNat
  · rw [if_pos hs, hcont _ (Nat.mod_lt _ (by norm_num)), ← hs, Nat.div_add_mod']
  · rw [if_neg hs]
    refine hc.disk n hn fun j hj _ hdj => ?_
    by_cases hji : j = i
    · rw [hji, hat.2]
      exact fun he => hs he.symm
    · exact hno j hj hji hdj

/-- Buffer `i` is being filled from the sector; its first `m` bytes are there. -/
structure Filling (L : ℕ → Byte) (i : ℕ) (sector : Word) (m : ℕ) (s : DState) : Prop where
  coh : Coh L NoByte i i s
  ready : s.ide.Ready
  content : ∀ j < m, (s.buf i).content j = L (sector.toNat * 512 + j)

/-- A harmless tick keeps a buffer that is being filled. -/
theorem Filling.tick {i m : ℕ} {sector : Word} {a : Act} (h : Filling L i sector m s)
    (ha : (s.buf i).dirty = true → a.Harmful s) (hok : TickOk a s) :
    ∃ s', ideWriteback (p + 1) s = .ok s' ∧ Filling L i sector m s' ∧ SameBufs s s' := by
  by_cases hd : Due s
  · obtain ⟨s', hs', hc, hr, hb⟩ := ideWriteback_spec h.coh h.ready
      (fun _ hdy => hok ⟨hd, ha hdy⟩) p
    exact ⟨s', hs', ⟨hc, hr, fun j hj => by rw [hb.content]; exact h.content j hj⟩, hb⟩
  · obtain ⟨c, hc⟩ := ideWriteback_quiet (fun hx => hd hx.1) (p + 1)
    exact ⟨_, hc, ⟨⟨h.coh.slots, h.coh.dirty, h.coh.disk⟩, h.ready, h.content⟩,
      fun _ => rfl, fun _ => rfl, fun _ => rfl, fun _ hi => hi⟩

/-- A change of buffer `i` itself while it is being filled. -/
theorem Coh.setBuf {i : ℕ} (h : Coh L M i i s) (b : SectorBuf)
    (hb : b.dirty = true → b.used = true) : Coh L M i i (s.setBuf i b) := by
  have hne : ∀ {j}, j ≠ i → (s.setBuf i b).buf j = s.buf j := fun hj => Function.update_of_ne hj ..
  refine ⟨fun j hj hji => ?_, fun j hj => ?_, fun n hn hno => ?_⟩
  · rw [hne hji]
    exact h.slots j hj hji
  · by_cases hji : j = i
    · rw [hji, show (s.setBuf i b).buf i = b from Function.update_self ..]
      exact hb
    · rw [hne hji]
      exact h.dirty j hj
  · refine h.disk n hn fun j hj hji => ?_
    have := hno j hj hji
    rwa [hne hji] at this

theorem Filling.setBuf {i m n : ℕ} {sector : Word} (h : Filling L i sector m s) (b : SectorBuf)
    (hb : b.dirty = true → b.used = true)
    (hc : ∀ j < n, b.content j = L (sector.toNat * 512 + j)) :
    Filling L i sector n (s.setBuf i b) :=
  ⟨h.coh.setBuf b hb, h.ready, fun j hj => by
    rw [show (s.setBuf i b).buf i = b from Function.update_self ..]; exact hc j hj⟩

/-- The sector of a buffer that is being filled is in no dirty buffer. -/
theorem Coh.disk_of_sector {i : ℕ} {sector : Word} (h : Coh L NoByte 128 i s)
    (hi : sector.toNat % 128 = i) {j : ℕ} (hj : j < 512) :
    s.ide.disk (sector.toNat * 512 + j) = L (sector.toNat * 512 + j) := by
  refine h.disk _ id fun k hk hki hdk he => hki ?_
  obtain ⟨hsec, -, -⟩ := h.slots k hk (by omega) (h.dirty k hk hdk)
  omega

/-- The sector is read into the buffer. -/
theorem wp_read {i : ℕ} {sector : Word} (hs : sector.toNat < 2 ^ 23) (hi : sector.toNat % 128 = i)
    (h : Coh L NoByte 128 i s) (hr : s.ide.Ready) :
    wp actSem (ideWriteback (p + 1)) TickOk (diskDoRead (p + 1) i sector)
      (fun _ s => Filling L i sector 512 s) s := by
  have hprep := wp_prepare (p := p) (P := Coh L NoByte 128 i)
    (fun s d hs hd => ⟨hs.slots, hs.dirty, fun n hn hno => by
      rw [← hs.disk n hn hno]; exact congrFun hd n⟩)
    (fun s hs hr => by
      obtain ⟨s', hs', hc, hr', -⟩ := ideWriteback_spec hs hr (fun hx => absurd hx (by omega)) p
      exact ⟨s', hs', hc, hr'⟩) sector h hr
  rw [diskDoRead_eq]
  refine wp_bind (wp_mono (fun _ s hs' => ?_) hprep)
  obtain ⟨hc, hr, h3⟩ := hs'
  obtain ⟨v, d, c, hrun, hrd, hd, hcj, hv⟩ := run_readBlock (i := i) hs hr.2 h3
  refine wp_bind (wp_mono ?_ (wp_busy (busy_readBlock i sector) hrun))
  rintro _ t ⟨rfl, c', rfl⟩
  have hfill : Filling L i sector 508 { s.setBuf i { s.buf i with content := c } with
      counter := c', ide := d } := by
    have hcoh : Coh L NoByte i i s := ⟨fun j hj _ => hc.slots j hj (by omega), hc.dirty, hc.disk⟩
    have hset := hcoh.setBuf { s.buf i with content := c } (hc.dirty i (by omega))
    refine ⟨⟨hset.slots, hset.dirty, fun n hn hno => ?_⟩, hrd, fun j hj => ?_⟩
    · rw [← hset.disk n hn hno]
      exact congrFun hd n
    · change (Function.update s.buf i { s.buf i with content := c } i).content j = _
      rw [Function.update_self]
      exact (hcj j hj).trans (hc.disk_of_sector hi (by omega))
  refine wp_act (P := Filling L i sector 508) hfill (fun s hs hok => ?_)
    fun s hs => ⟨(), _, rfl, ?_⟩
  · obtain ⟨s', hs', hf, -⟩ := hs.tick (p := p) (fun hd => by
      change if 127 < 127 then AnyDirty s else (s.buf i).dirty = true
      rwa [if_neg (lt_irrefl _)]) hok
    exact ⟨s', hs', hf⟩
  · refine hs.setBuf _ (hs.coh.dirty i (by omega)) fun j hj => ?_
    dsimp only
    by_cases hj' : 4 * 127 ≤ j ∧ j < 4 * 127 + 4
    · rw [if_pos hj', hv _ (by omega), show sector.toNat * 512 + 508 + (j - 4 * 127) =
        sector.toNat * 512 + j by omega]
      exact hc.disk_of_sector hi hj
    · rw [if_neg hj', hs.content j (by omega)]

/-- A dirty victim goes to the disk, and either way the disk is up to date with it. -/
theorem wp_evict {i : ℕ} (hi : i < 128) (h : Coh L M 128 128 s) (hr : s.ide.Ready) :
    wp actSem (ideWriteback (p + 1)) TickOk
      (if (s.buf i).used = true ∧ (s.buf i).dirty = true then
        diskDoWrite (p + 1) i (s.buf i).sector else ret ())
      (fun _ s => Coh L M 128 i s ∧ s.ide.Ready) s := by
  by_cases hd : (s.buf i).used = true ∧ (s.buf i).dirty = true
  · rw [if_pos hd]
    exact wp_victim hi h hr ⟨hd.1, rfl⟩
  · rw [if_neg hd]
    refine ⟨⟨h.slots, h.dirty, fun n hn hno => h.disk n hn fun j hj _ hdj => ?_⟩, hr⟩
    refine hno j hj (fun hji => hd ?_) hdj
    rw [hji] at hdj
    exact ⟨h.dirty i hi hdj, hdj⟩

/-- A full buffer gets the number of its sector. -/
theorem Filling.setSector {i : ℕ} {sector : Word} (h : Filling L i sector 512 s) (hs : sector.toNat < 2 ^ 23)
    (hi : sector.toNat % 128 = i) (hu : (s.buf i).used = true) :
    Coh L NoByte 128 i (s.setBuf i { s.buf i with sector := sector }) ∧
      At i sector (s.setBuf i { s.buf i with sector := sector }) := by
  have hself : (s.setBuf i { s.buf i with sector := sector }).buf i =
    { s.buf i with sector := sector } := Function.update_self ..
  have hset := h.setBuf { s.buf i with sector := sector } (fun _ => hu) h.content
  refine ⟨⟨fun j hj _ hu => ?_, hset.coh.dirty, hset.coh.disk⟩, ?_⟩
  · by_cases hji : j = i
    · rw [hji, hself]
      exact ⟨hi, hs, h.content⟩
    · exact hset.coh.slots j hj hji hu
  · unfold At
    rw [hself]
    exact ⟨hu, rfl⟩

/-- A buffer that is up to date with the disk is clean. -/
theorem Coh.setClean {i : ℕ} {sector : Word} (h : Coh L M 128 i s) (hi : i < 128) (hat : At i sector s) :
    Coh L M 128 128 (s.setBuf i { s.buf i with dirty := false }) ∧
      At i sector (s.setBuf i { s.buf i with dirty := false }) := by
  have hself : (s.setBuf i { s.buf i with dirty := false }).buf i =
    { s.buf i with dirty := false } := Function.update_self ..
  have hne : ∀ {j}, j ≠ i → (s.setBuf i { s.buf i with dirty := false }).buf j = s.buf j :=
    fun hj => Function.update_of_ne hj ..
  refine ⟨⟨fun j hj h128 hu => ?_, fun j hj hd => ?_, fun n hn hno => ?_⟩, ?_⟩
  · by_cases hji : j = i
    · have hs := h.slots i hi (by omega) hat.1
      rw [hji, hself]
      exact hs
    · rw [hne hji] at hu ⊢
      exact h.slots j hj h128 hu
  · by_cases hji : j = i
    · rw [hji, hself] at hd
      exact absurd hd Bool.false_ne_true
    · rw [hne hji] at hd ⊢
      exact h.dirty j hj hd
  · refine h.disk n hn fun j hj hji hd => ?_
    have := hno j hj (by omega)
    rw [hne hji] at this
    exact this hd
  · unfold At
    rw [hself]
    exact hat

/-- **`buf_fetch` under the handler.** -/
theorem wp_bufFetch {sector : Word} (hs : sector.toNat < 2 ^ 23) (h : Coh L NoByte 128 128 s)
    (hr : s.ide.Ready) :
    wp actSem (ideWriteback (p + 1)) TickOk (bufFetch (p + 1) sector)
      (fun i s => i = sector.toNat % 128 ∧ Coh L NoByte 128 128 s ∧ s.ide.Ready ∧ At i sector s)
      s := by
  set i := sector.toNat % 128 with hi
  have hi128 : i < 128 := Nat.mod_lt _ (by norm_num)
  have hkeep : ∀ {a : Act} s, Coh L NoByte 128 128 s ∧ s.ide.Ready → TickOk a s →
      ∃ s', ideWriteback (p + 1) s = .ok s' ∧ Coh L NoByte 128 128 s' ∧ s'.ide.Ready := by
    intro a s hs _
    obtain ⟨s', hs', hc, hr', -⟩ := ideWriteback_spec hs.1 hs.2 (fun hx => absurd hx (by omega)) p
    exact ⟨s', hs', hc, hr'⟩
  unfold bufFetch
  rw [getBuf_bind]
  refine wp_act (P := fun s => Coh L NoByte 128 128 s ∧ s.ide.Ready) ⟨h, hr⟩ hkeep
    fun s hs' => ⟨s.buf i, s, rfl, ?_⟩
  by_cases hhit : (s.buf i).used = true ∧ (s.buf i).sector = sector
  · rw [if_pos hhit]
    exact ⟨rfl, hs'.1, hs'.2, hhit⟩
  rw [if_neg hhit, getBuf_bind]
  refine wp_act (P := fun s => Coh L NoByte 128 128 s ∧ s.ide.Ready) hs' hkeep
    fun s hs' => ⟨s.buf i, s, rfl, ?_⟩
  refine wp_bind (wp_mono (fun _ s hs' => ?_) (wp_evict hi128 hs'.1 hs'.2))
  refine wp_bind (wp_mono (fun _ s hf => ?_) (wp_read hs rfl hs'.1 hs'.2))
  -- the fields of the buffer, its sector number second
  rw [step_bind]
  refine wp_act (a := Act.setUsed i true) hf (fun s hf hok => ?_) fun s hf => ⟨(), _, rfl, ?_⟩
  · obtain ⟨s', hs', hf', -⟩ := hf.tick (p := p) (a := Act.setUsed i true) (fun hd => hd) hok
    exact ⟨s', hs', hf'⟩
  have hf1 := hf.setBuf { s.buf i with used := true } (fun _ => rfl) hf.content
  have hu1 : ((s.setBuf i { s.buf i with used := true }).buf i).used = true := by
    rw [show (s.setBuf i _).buf i = _ from Function.update_self ..]
  rw [step_bind]
  refine wp_act (a := Act.setSector i sector)
    (P := fun s => Filling L i sector 512 s ∧ (s.buf i).used = true) ⟨hf1, hu1⟩
    (fun s hf hok => ?_) fun s hf => ⟨(), _, rfl, ?_⟩
  · obtain ⟨s', hs', hf', hb⟩ := hf.1.tick (p := p) (a := Act.setSector i sector) (fun hd => hd) hok
    exact ⟨s', hs', hf', (hb.used i).trans hf.2⟩
  rw [step_bind]
  refine wp_act (a := Act.setDirty i false)
    (P := fun s => (Coh L NoByte 128 i s ∧ At i sector s) ∧ s.ide.Ready)
    ⟨hf.1.setSector hs rfl hf.2, hf.1.ready⟩
    (fun s hs' _ => tick_at hs'.1 hs'.2) fun s hs' => ⟨(), _, rfl, ?_⟩
  obtain ⟨hc, hat⟩ := hs'.1.1.setClean hi128 hs'.1.2
  exact ⟨rfl, hc, hs'.2, hat⟩

theorem toNat_sector (offset : Word) : (offset >>> 9).toNat = offset.toNat / 512 := by
  rw [BitVec.toNat_ushiftRight, Nat.shiftRight_eq_div_pow]

theorem toNat_offset (offset : Word) : (offset &&& 511).toNat = offset.toNat % 512 := by
  rw [BitVec.toNat_and]
  exact Nat.and_two_pow_sub_one_eq_mod offset.toNat 9

theorem sector_lt (offset : Word) : (offset >>> 9).toNat < 2 ^ 23 := by
  rw [toNat_sector]
  exact Nat.div_lt_of_lt_mul offset.isLt

/-- The buffer of a fetched sector has the logical byte. -/
theorem Coh.content_at {offset : Word} (h : Coh L M 128 y s)
    (hat : At ((offset >>> 9).toNat % 128) (offset >>> 9) s) :
    (s.buf ((offset >>> 9).toNat % 128)).content (offset &&& 511).toNat = L offset.toNat := by
  have hi : (offset >>> 9).toNat % 128 < 128 := Nat.mod_lt _ (by norm_num)
  obtain ⟨-, -, hc⟩ := h.slots _ hi (by omega) hat.1
  rw [hat.2] at hc
  rw [toNat_offset, hc _ (Nat.mod_lt _ (by norm_num)), toNat_sector, Nat.div_add_mod']

/-- **`read_byte` under the handler.** -/
theorem wp_readByte (offset : Word) (h : Coh L NoByte 128 128 s) (hr : s.ide.Ready) :
    wp actSem (ideWriteback (p + 1)) TickOk (readByte (p + 1) offset)
      (fun b s => b = L offset.toNat ∧ Coh L NoByte 128 128 s ∧ s.ide.Ready) s := by
  unfold readByte
  refine wp_bind (wp_mono ?_ (wp_bufFetch (sector_lt offset) h hr))
  rintro _ s ⟨rfl, hc, hr, hat⟩
  rw [getBuf_bind]
  refine wp_act (P := fun s => (Coh L NoByte 128 128 s ∧ At _ (offset >>> 9) s) ∧ s.ide.Ready)
    ⟨⟨hc, hat⟩, hr⟩ (fun s hs _ => tick_at hs.1 hs.2) fun s hs => ⟨_, s, rfl, ?_⟩
  exact ⟨hs.1.1.content_at hs.1.2, hs.1.1, hs.2⟩

/-- The new byte is in its buffer, which is not yet marked dirty. -/
theorem Coh.setByte {offset : Word} (h : Coh L NoByte 128 128 s)
    (hat : At ((offset >>> 9).toNat % 128) (offset >>> 9) s) {data : Byte} {b : SectorBuf}
    (hb : b = { s.buf ((offset >>> 9).toNat % 128) with
      content := Function.update (s.buf ((offset >>> 9).toNat % 128)).content
        (offset &&& 511).toNat data }) :
    Coh (Function.update L offset.toNat data) (fun n => n / 512 = (offset >>> 9).toNat) 128 128
      (s.setBuf ((offset >>> 9).toNat % 128) b) := by
  set i := (offset >>> 9).toNat % 128 with hi
  have hself : (s.setBuf i b).buf i = b := Function.update_self ..
  have hne : ∀ {j}, j ≠ i → (s.setBuf i b).buf j = s.buf j := fun hj => Function.update_of_ne hj ..
  have hdirty : b.dirty = (s.buf i).dirty := by rw [hb]
  have hsec := toNat_sector offset
  refine ⟨fun j hj h128 hu => ?_, fun j hj hd => ?_, fun n hn hno => ?_⟩
  · by_cases hji : j = i
    · obtain ⟨h1, h2, h3⟩ := h.slots i (hji ▸ hj) (by omega) hat.1
      rw [hji, hself, hb]
      refine ⟨h1, h2, fun k hk => ?_⟩
      dsimp only
      rw [hat.2] at h3 ⊢
      rw [Function.update_apply, Function.update_apply, toNat_offset, h3 k hk]
      refine if_congr ?_ rfl rfl
      omega
    · rw [hne hji] at hu ⊢
      obtain ⟨h1, h2, h3⟩ := h.slots j hj h128 hu
      refine ⟨h1, h2, fun k hk => ?_⟩
      rw [h3 k hk, Function.update_of_ne]
      omega
  · by_cases hji : j = i
    · rw [hji, hself, hb]
      exact hat.1
    · rw [hne hji] at hd ⊢
      exact h.dirty j hj hd
  · have hold : s.ide.disk n = L n := h.disk n id fun j hj h128 hd => by
      by_cases hji : j = i
      · rw [hji, hat.2]
        exact fun he => hn he.symm
      · have hother := hno j hj h128
        rw [hne hji] at hother
        exact hother hd
    rw [Function.update_of_ne fun he => hn (by rw [he, hsec])]
    exact hold

/-- Once the buffer is marked dirty, no byte is outstanding. -/
theorem Coh.setDirty {i : ℕ} {sector : Word} (hi : i < 128)
    (h : Coh L (fun n => n / 512 = sector.toNat) 128 128 s) (hat : At i sector s) :
    Coh L NoByte 128 128 (s.setBuf i { s.buf i with dirty := true }) := by
  have hself : (s.setBuf i { s.buf i with dirty := true }).buf i =
    { s.buf i with dirty := true } := Function.update_self ..
  have hne : ∀ {j}, j ≠ i → (s.setBuf i { s.buf i with dirty := true }).buf j = s.buf j :=
    fun hj => Function.update_of_ne hj ..
  refine ⟨fun j hj h128 hu => ?_, fun j hj hd => ?_, fun n _ hno => ?_⟩
  · by_cases hji : j = i
    · have hs := h.slots i hi (by omega) hat.1
      rw [hji, hself]
      exact hs
    · rw [hne hji] at hu ⊢
      exact h.slots j hj h128 hu
  · by_cases hji : j = i
    · rw [hji, hself]
      exact hat.1
    · rw [hne hji] at hd ⊢
      exact h.dirty j hj hd
  · have hns : n / 512 ≠ sector.toNat := by
      have := hno i hi (by omega)
      rw [hself] at this
      exact fun he => this rfl (by rw [hat.2, he])
    refine h.disk n hns fun j hj h128 hd => ?_
    by_cases hji : j = i
    · rw [hji, hat.2]
      exact fun he => hns he.symm
    · have := hno j hj h128
      rw [hne hji] at this
      exact this hd

/-- **`write_byte` under the handler.** -/
theorem wp_writeByte (offset : Word) (data : Byte) (h : Coh L NoByte 128 128 s)
    (hr : s.ide.Ready) :
    wp actSem (ideWriteback (p + 1)) TickOk (writeByte (p + 1) offset data)
      (fun _ s => Coh (Function.update L offset.toNat data) NoByte 128 128 s ∧ s.ide.Ready) s := by
  unfold writeByte
  refine wp_bind (wp_mono ?_ (wp_bufFetch (sector_lt offset) h hr))
  rintro _ s ⟨rfl, hc, hr, hat⟩
  set i := (offset >>> 9).toNat % 128 with hi
  rw [step_bind]
  refine wp_act (P := fun s => (Coh L NoByte 128 128 s ∧ At i (offset >>> 9) s) ∧ s.ide.Ready)
    ⟨⟨hc, hat⟩, hr⟩ (fun s hs _ => tick_at hs.1 hs.2) fun s hs => ⟨(), _, rfl, ?_⟩
  have hat' : At i (offset >>> 9) (s.setBuf i { s.buf i with
      content := Function.update (s.buf i).content (offset &&& 511).toNat data }) := by
    unfold At
    rw [show (s.setBuf i _).buf i = _ from Function.update_self ..]
    exact hs.1.2
  refine wp_act (P := fun s => (Coh (Function.update L offset.toNat data)
      (fun n => n / 512 = (offset >>> 9).toNat) 128 128 s ∧ At i (offset >>> 9) s) ∧ s.ide.Ready)
    ⟨⟨hs.1.1.setByte hs.1.2 rfl, hat'⟩, hs.2⟩ (fun s hs _ => tick_at hs.1 hs.2)
    fun s hs => ⟨(), _, rfl, ?_⟩
  exact ⟨hs.1.1.setDirty (Nat.mod_lt _ (by norm_num)) hs.1.2, hs.2⟩

/-- A sequence of calls on a flat disk: what the reads return, and the disk
content in the end. -/
def flatCalls : List DiskCall → (ℕ → Byte) → List Byte × (ℕ → Byte)
  | [], L => ([], L)
  | .read offset :: cs, L => (L offset.toNat :: (flatCalls cs L).1, (flatCalls cs L).2)
  | .write offset data :: cs, L => flatCalls cs (Function.update L offset.toNat data)

/-- **A run of calls under the handler**, from any coherent state. -/
theorem wp_runCalls : ∀ (cs : List DiskCall) {L : ℕ → Byte} {s : DState},
    Coh L NoByte 128 128 s → s.ide.Ready →
    wp actSem (ideWriteback (p + 1)) TickOk (runCalls (p + 1) cs)
      (fun bs s => bs = (flatCalls cs L).1 ∧ Coh (flatCalls cs L).2 NoByte 128 128 s) s
  | [], _, _, h, _ => ⟨rfl, h⟩
  | .read offset :: cs, L, s, h, hr => by
    refine wp_bind (wp_mono ?_ (wp_readByte offset h hr))
    rintro _ s ⟨rfl, hc, hr⟩
    refine wp_bind (wp_mono ?_ (wp_runCalls cs hc hr))
    rintro _ s ⟨rfl, hc⟩
    exact ⟨rfl, hc⟩
  | .write offset data :: cs, L, s, h, hr =>
    wp_bind (wp_mono (fun _ _ hs => wp_runCalls cs hs.1 hs.2) (wp_writeByte offset data h hr))

end Preempted

theorem DState.Booted.coh {s : DState} (h : s.Booted) : Coh s.ide.disk NoByte 128 128 s :=
  ⟨fun i _ _ hu => absurd hu (by rw [h.unused]; exact Bool.false_ne_true),
    fun i _ hd => absurd hd (by rw [h.clean]; exact Bool.false_ne_true), fun _ _ _ => rfl⟩

/-- **The disk cache tolerates its handler** where no tick does harm: no device
assertion fails and no wait is endless, the reads return the bytes written
last, and the disk differs from the logical content only in dirty buffers. -/
theorem runCalls_tolerates {s : DState} (h : s.Booted) (cs : List DiskCall) (p : ℕ) {t : ℕ → Bool}
    (ht : Harmless actSem (ideWriteback (p + 1)) TickOk (runCalls (p + 1) cs) t s) :
    ∃ t' s', preempt actSem (ideWriteback (p + 1)) (runCalls (p + 1) cs) t s =
        .ok ((flatCalls cs s.ide.disk).1, t', s') ∧
      (∀ i < 128, (s'.buf i).dirty = true → (s'.buf i).Holds (flatCalls cs s.ide.disk).2 i) ∧
      ∀ n, (∀ i < 128, (s'.buf i).dirty = true → (s'.buf i).sector.toNat ≠ n / 512) →
        s'.ide.disk n = (flatCalls cs s.ide.disk).2 n := by
  have hready : s.ide.Ready := ⟨h.ready, by rw [h.idle]; norm_num⟩
  obtain ⟨_, t', s', hrun, rfl, hc⟩ := preempt_of_wp (wp_runCalls cs h.coh hready) ht
  refine ⟨t', s', hrun, fun i hi hd => ?_, fun n hn => ?_⟩
  · exact hc.slots i hi (by omega) (hc.dirty i hi hd)
  · exact hc.disk n id fun i hi _ => hn i hi

/-! ### A write-back in the middle of a read command -/

/-- After boot: nothing buffered, a disk of zeroes. -/
def bootDisk : DState where
  buf := fun _ => { sector := 0, used := false, dirty := false, content := fun _ => 0 }
  counter := 0
  ide :=
    { port := fun i => if i = 7 then 0x40 else 0
      pos := 0
      byteCnt := 0
      ideWrite := false
      disk := fun _ => 0 }

theorem bootDisk_booted : bootDisk.Booted := ⟨fun _ => rfl, fun _ => rfl, rfl, rfl⟩

/-- The hundredth tick comes between two calls, and writes sector 0 back. -/
theorem runCalls_tolerates_between :
    let cs := [DiskCall.write 0 1, .read 512, .read 0]
    let t : ℕ → Bool := fun n => n < 99 || n == 271
    ∃ t' s', preempt actSem (ideWriteback 1) (runCalls 1 cs) t bootDisk = .ok ([0, 1], t', s') ∧
      (∀ i < 128, (s'.buf i).dirty = true → (s'.buf i).Holds (flatCalls cs fun _ => 0).2 i) ∧
      ∀ n, (∀ i < 128, (s'.buf i).dirty = true → (s'.buf i).sector.toNat ≠ n / 512) →
        s'.ide.disk n = (flatCalls cs fun _ => 0).2 n :=
  runCalls_tolerates bootDisk_booted _ 0 (by decide +kernel)

/-- Whether a run ends in a failed assertion. -/
def failsAssert {α : Type} : Except Fault α → Bool
  | .error .assert => true
  | _ => false

/-- The hundredth tick comes while sector 1 is read and sector 0 is dirty: the
next `in_long` finds the device in a write command. -/
theorem runCalls_asserts :
    let t : ℕ → Bool := fun n => n < 99 || n == 283
    failsAssert (preempt actSem (ideWriteback 1) (runCalls 1 [.write 0 1, .read 512]) t bootDisk) =
      true := by
  decide +kernel

end Nemu
