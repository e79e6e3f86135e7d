/-
# DRAM with row buffers

`dram.c`: the physical memory is `dram[rank][bank][row][col]`, an access goes
through the row buffer of its bank and moves a burst of 8 bytes. A write
updates the buffer under a byte mask and copies the whole buffer back, so a
valid row buffer always equals the row it names (`Dram.RowsOk`), and what
`dramRead` and `dramWrite` do to the flat array `Dram.byteAt` is what a flat
byte array would do (`dramRead_spec`, `dramWrite_spec`). After any run of
calls from `init_ddr3` on, a read returns the bytes last written (`dram_run`).

The bytes of `temp` that no burst fills are whatever the stack held: the
parameter `junk`.

Key definitions: `Dram`, `dramRead`, `dramWrite`, `Dram.byteAt`, `Dram.RowsOk`,
`DramCall`, `lastWritten`.
Key theorems: `dramRead_spec`, `dramWrite_spec`, `dram_run`.
-/
import Nemu.Lib.Bytes

namespace Nemu

open Bytes

/-- `HW_MEM_SIZE`: 128 MB. -/
def hwMemSize : ℕ := 2 ^ 27

/-! ### The address fields (`dram_addr`) -/

def colOf (a : Word) : ℕ := a.toNat % 2 ^ 10
def rowOf (a : Word) : ℕ := a.toNat / 2 ^ 10 % 2 ^ 10
def bankOf (a : Word) : ℕ := a.toNat / 2 ^ 20 % 2 ^ 3
def rankOf (a : Word) : ℕ := a.toNat / 2 ^ 23 % 2 ^ 4

/-- The address of the burst of `a`: `addr & ~BURST_MASK`. -/
def burstOf (a : Word) : Word := a &&& ~~~7#32

/-- A row buffer (`RB`). -/
structure RB where
  buf : ℕ → Byte
  rowIdx : ℕ
  valid : Bool

/-- `dram` and `rowbufs`. -/
structure Dram where
  dram : ℕ → ℕ → ℕ → ℕ → Byte
  rowbufs : ℕ → ℕ → RB

namespace Dram

/-- The byte at a physical address, as `hw_mem` sees the array. -/
def byteAt (d : Dram) (a : Word) : Byte := d.dram (rankOf a) (bankOf a) (rowOf a) (colOf a)

/-- `init_ddr3`: no row buffer is valid. -/
def initDdr3 (d : Dram) : Dram :=
  { d with rowbufs := fun r b => { d.rowbufs r b with valid := false } }

def setRowbuf (d : Dram) (rank bank : ℕ) (rb : RB) : Dram :=
  { d with rowbufs := fun r b => if r = rank ∧ b = bank then rb else d.rowbufs r b }

/-- Bring a row into the row buffer of its bank, if it is not there. -/
def loadRow (d : Dram) (rank bank row : ℕ) : Dram :=
  if (d.rowbufs rank bank).valid ∧ (d.rowbufs rank bank).rowIdx = row then d
  else d.setRowbuf rank bank { buf := d.dram rank bank row, rowIdx := row, valid := true }

/-- `memcpy(dram[rank][bank][row], buf, NR_COL)`. -/
def storeRow (d : Dram) (rank bank row : ℕ) (buf : ℕ → Byte) : Dram :=
  { d with dram := fun r b w c =>
      if r = rank ∧ b = bank ∧ w = row then buf c else d.dram r b w c }

end Dram

/-- `ddr3_read`: the 8 bytes of the burst of `addr`. -/
def ddr3Read (d : Dram) (addr : Word) : Option ((ℕ → Byte) × Dram) :=
  if addr.toNat < hwMemSize then
    let t := burstOf addr
    let d := d.loadRow (rankOf t) (bankOf t) (rowOf t)
    some (fun i => (d.rowbufs (rankOf t) (bankOf t)).buf (colOf t + i), d)
  else none

/-- `memcpy_with_mask(buf + col, data, BURST_LEN, mask)`. -/
def memcpyWithMask (buf : ℕ → Byte) (col : ℕ) (data : ℕ → Byte) (mask : ℕ → Bool) : ℕ → Byte :=
  fun c => if col ≤ c ∧ c < col + 8 ∧ mask (c - col) then data (c - col) else buf c

/-- `ddr3_write`: the masked bytes of the burst of `addr`, through the row
buffer and back to the array. -/
def ddr3Write (d : Dram) (addr : Word) (data : ℕ → Byte) (mask : ℕ → Bool) : Option Dram :=
  if addr.toNat < hwMemSize then
    let t := burstOf addr
    let d := d.loadRow (rankOf t) (bankOf t) (rowOf t)
    let rb := d.rowbufs (rankOf t) (bankOf t)
    let buf := memcpyWithMask rb.buf (colOf t) data mask
    some ((d.setRowbuf (rankOf t) (bankOf t) { rb with buf := buf }).storeRow
      (rankOf t) (bankOf t) (rowOf t) buf)
  else none

section Access

variable (junk : ℕ → Byte)

/-- `dram_read`: four bytes from `addr` on, the first `len` of them meant. -/
def dramRead (d : Dram) (addr : Word) (len : ℕ) : Option (Word × Dram) := do
  let offset := addr.toNat % 8
  let (lo, d) ← ddr3Read d addr
  let temp := fun i => if i < 8 then lo i else junk i
  if offset + len > 8 then
    let (hi, d) ← ddr3Read d (addr + 8)
    let temp := fun i => if 8 ≤ i ∧ i < 16 then hi (i - 8) else temp i
    return (word (fun i => temp (offset + i)) 4, d)
  else return (word (fun i => temp (offset + i)) 4, d)

/-- `dram_write`: the low `len` bytes of `data` at `addr`. -/
def dramWrite (d : Dram) (addr : Word) (len : ℕ) (data : Word) : Option Dram := do
  let offset := addr.toNat % 8
  let temp := fun i => if offset ≤ i ∧ i < offset + 4 then byte data (i - offset) else junk i
  let mask := fun i => decide (offset ≤ i ∧ i < offset + len)
  let d ← ddr3Write d addr temp mask
  if offset + len > 8 then
    ddr3Write d (addr + 8) (fun i => temp (8 + i)) (fun i => mask (8 + i))
  else return d

end Access

/-! ### The fields of nearby addresses -/

/-- An address is its fields: two addresses in memory with the same fields
are equal. -/
theorem eq_of_fields {a b : Word} (ha : a.toNat < hwMemSize) (hb : b.toNat < hwMemSize)
    (hc : colOf a = colOf b) (hr : rowOf a = rowOf b) (hk : bankOf a = bankOf b)
    (hn : rankOf a = rankOf b) : a = b := by
  simp only [colOf, rowOf, bankOf, rankOf, hwMemSize] at *
  exact BitVec.eq_of_toNat_eq (by omega)

theorem toNat_burstOf (a : Word) : (burstOf a).toNat = a.toNat / 8 * 8 := by
  rw [burstOf, show ~~~7#32 = BitVec.allOnes 32 <<< 3 by decide, toNat_and_shl_ones]
  rfl

/-- Byte `j` of the burst of `a` sits in the row of the burst. -/
theorem fields_burst {a : Word} {j : ℕ} (hj : j < 8) {b : Word}
    (hb : b.toNat = a.toNat / 8 * 8 + j) :
    rankOf b = rankOf (burstOf a) ∧ bankOf b = bankOf (burstOf a) ∧ rowOf b = rowOf (burstOf a) ∧
      colOf b = colOf (burstOf a) + j := by
  simp only [colOf, rowOf, bankOf, rankOf, toNat_burstOf, hb]
  omega

namespace Dram

/-- Each valid row buffer equals the row it names. -/
def RowsOk (d : Dram) : Prop :=
  ∀ r b, (d.rowbufs r b).valid = true →
    ∀ c < 2 ^ 10, (d.rowbufs r b).buf c = d.dram r b (d.rowbufs r b).rowIdx c

theorem rowsOk_initDdr3 (d : Dram) : d.initDdr3.RowsOk := by
  intro r b h
  simp [initDdr3] at h

@[simp] theorem byteAt_initDdr3 (d : Dram) (a : Word) : d.initDdr3.byteAt a = d.byteAt a := rfl

@[simp] theorem dram_loadRow (d : Dram) (r b w : ℕ) : (d.loadRow r b w).dram = d.dram := by
  unfold loadRow setRowbuf; split_ifs <;> rfl

/-- The row is in the buffer, and the other buffers are as before. -/
theorem RowsOk.loadRow {d : Dram} (h : d.RowsOk) (r b w : ℕ) :
    (d.loadRow r b w).RowsOk ∧ ((d.loadRow r b w).rowbufs r b).valid = true ∧
      ((d.loadRow r b w).rowbufs r b).rowIdx = w := by
  unfold Dram.loadRow
  split_ifs with hc
  · exact ⟨h, hc⟩
  · refine ⟨?_, by simp [setRowbuf], by simp [setRowbuf]⟩
    intro r' b' hv c hc'
    by_cases he : r' = r ∧ b' = b
    · simp [setRowbuf, he]
    · simp only [setRowbuf, he, ↓reduceIte] at hv ⊢
      exact h r' b' hv c hc'

end Dram

/-- A bank whose buffer and row are written alike stays consistent. -/
theorem Dram.RowsOk.storeRow {d : Dram} (h : d.RowsOk) (r b : ℕ) (rb : RB) :
    ((d.setRowbuf r b rb).storeRow r b rb.rowIdx rb.buf).RowsOk := by
  intro r' b' hv c hc
  by_cases he : r' = r ∧ b' = b
  · obtain ⟨rfl, rfl⟩ := he
    simp [Dram.storeRow, Dram.setRowbuf]
  · simp only [Dram.storeRow, Dram.setRowbuf, he, ↓reduceIte] at hv ⊢
    rw [if_neg fun hx => he ⟨hx.1, hx.2.1⟩]
    exact h r' b' hv c hc

/-! ### What a burst does -/

/-- A burst read returns the bytes of the array. -/
theorem ddr3Read_spec {d : Dram} (h : d.RowsOk) {a : Word} (ha : a.toNat < hwMemSize) :
    ∃ f d', ddr3Read d a = some (f, d') ∧ d'.RowsOk ∧ d'.dram = d.dram ∧
      ∀ (j : ℕ) (b : Word), j < 8 → b.toNat = a.toNat / 8 * 8 + j → f j = d.byteAt b := by
  obtain ⟨hok, hv, hr⟩ := h.loadRow (rankOf (burstOf a)) (bankOf (burstOf a)) (rowOf (burstOf a))
  refine ⟨_, _, by rw [ddr3Read, if_pos ha], hok, Dram.dram_loadRow .., fun j b hj hb => ?_⟩
  obtain ⟨h1, h2, h3, h4⟩ := fields_burst hj hb
  rw [hok _ _ hv _ (by rw [← h4]; exact Nat.mod_lt _ (by norm_num)), hr, Dram.dram_loadRow,
    Dram.byteAt, h1, h2, h3, h4]

/-- A burst write changes the masked bytes of its burst and no other byte. -/
theorem ddr3Write_spec {d : Dram} (h : d.RowsOk) {a : Word} (ha : a.toNat < hwMemSize)
    (data : ℕ → Byte) (mask : ℕ → Bool) :
    ∃ d', ddr3Write d a data mask = some d' ∧ d'.RowsOk ∧
      ∀ b : Word, b.toNat < hwMemSize → d'.byteAt b =
        if b.toNat / 8 = a.toNat / 8 ∧ mask (b.toNat % 8) then data (b.toNat % 8)
        else d.byteAt b := by
  obtain ⟨hok, hv, hr⟩ := h.loadRow (rankOf (burstOf a)) (bankOf (burstOf a)) (rowOf (burstOf a))
  set t := burstOf a with ht
  set d1 := d.loadRow (rankOf t) (bankOf t) (rowOf t) with hd1
  have hdram : d1.dram = d.dram := Dram.dram_loadRow ..
  refine ⟨_, by rw [ddr3Write, if_pos ha], ?_, fun b hb => ?_⟩
  · have := hok.storeRow (rankOf t) (bankOf t) { d1.rowbufs (rankOf t) (bankOf t) with
      buf := memcpyWithMask (d1.rowbufs (rankOf t) (bankOf t)).buf (colOf t) data mask }
    rwa [hr] at this
  · -- inside the burst's row the buffer decides, elsewhere nothing changes
    have hbuf : ∀ c < 2 ^ 10, (d1.rowbufs (rankOf t) (bankOf t)).buf c =
        d.dram (rankOf t) (bankOf t) (rowOf t) c := by
      intro c hc
      rw [hok _ _ hv _ hc, hr, hdram]
    change (if rankOf b = rankOf t ∧ bankOf b = bankOf t ∧ rowOf b = rowOf t then
      memcpyWithMask (d1.rowbufs (rankOf t) (bankOf t)).buf (colOf t) data mask (colOf b)
      else d1.dram (rankOf b) (bankOf b) (rowOf b) (colOf b)) = _
    rw [hdram, Dram.byteAt]
    by_cases hrow : rankOf b = rankOf t ∧ bankOf b = bankOf t ∧ rowOf b = rowOf t
    · rw [if_pos hrow, memcpyWithMask, hrow.1, hrow.2.1, hrow.2.2,
        hbuf (colOf b) (Nat.mod_lt _ (by norm_num))]
      have hin : (colOf t ≤ colOf b ∧ colOf b < colOf t + 8) ↔ b.toNat / 8 = a.toNat / 8 := by
        simp only [colOf, rowOf, bankOf, rankOf, ht, toNat_burstOf, hwMemSize] at *
        omega
      by_cases hk : b.toNat / 8 = a.toNat / 8
      · have hsub : colOf b - colOf t = b.toNat % 8 := by
          simp only [colOf, ht, toNat_burstOf]; omega
        simp only [hsub, hin.mpr hk, hk, true_and]
      · rw [if_neg fun hc => hk (hin.mp ⟨hc.1, hc.2.1⟩), if_neg fun hc => hk hc.1]
    · rw [if_neg hrow, if_neg]
      rintro ⟨hk, -⟩
      obtain ⟨h1, h2, h3, -⟩ := fields_burst (a := a) (b := b) (j := b.toNat % 8)
        (Nat.mod_lt _ (by norm_num)) (by omega)
      exact hrow ⟨h1, h2, h3⟩

/-! ### What an access does -/

section Spec

variable (junk : ℕ → Byte)

/-- **A read through the row buffers is a read of the array.** -/
theorem dramRead_spec {d : Dram} (h : d.RowsOk) {a : Word} {n : ℕ} (h1 : 1 ≤ n) (h4 : n ≤ 4)
    (ha : a.toNat + n ≤ hwMemSize) :
    ∃ v d', dramRead junk d a n = some (v, d') ∧ d'.RowsOk ∧ d'.dram = d.dram ∧
      ∀ i < n, byte v i = d.byteAt (a + BitVec.ofNat 32 i) := by
  obtain ⟨lo, d1, hlo, hok1, hd1, hlo'⟩ := ddr3Read_spec h (a := a) (by omega)
  simp only [hwMemSize] at ha
  by_cases hx : a.toNat % 8 + n > 8
  · have ha8 : (a + 8).toNat = a.toNat + 8 := toNat_add_ofNat (a := a) (i := 8) (by omega)
    obtain ⟨hi, d2, hhi, hok2, hd2, hhi'⟩ := ddr3Read_spec hok1 (a := a + 8) (by
      rw [ha8, hwMemSize]; omega)
    have hrun := by
      simpa only [hlo, hhi, hx, Option.bind_eq_bind, Option.bind_some, ↓reduceIte]
        using dramRead.eq_1 junk d a n
    refine ⟨_, d2, hrun, hok2, hd2.trans hd1, fun i hi4 => ?_⟩
    have hai : (a + BitVec.ofNat 32 i).toNat = a.toNat + i := toNat_add_ofNat (by omega)
    rw [byte_word _ _ _ (by omega), if_pos (by omega)]
    by_cases hc : 8 ≤ a.toNat % 8 + i
    · rw [if_pos ⟨hc, by omega⟩, hhi' _ _ (by omega) (by rw [hai, ha8]; omega), Dram.byteAt,
        Dram.byteAt, hd1]
    · rw [if_neg (by omega), if_pos (by omega), hlo' _ _ (by omega) (by rw [hai]; omega)]
  · have hrun := by
      simpa only [hlo, hx, Option.bind_eq_bind, Option.bind_some, ↓reduceIte]
        using dramRead.eq_1 junk d a n
    refine ⟨_, d1, hrun, hok1, hd1, fun i hi4 => ?_⟩
    have hai : (a + BitVec.ofNat 32 i).toNat = a.toNat + i := toNat_add_ofNat (by omega)
    rw [byte_word _ _ _ (by omega), if_pos (by omega), if_pos (by omega),
      hlo' _ _ (by omega) (by rw [hai]; omega)]

/-- **A write through the row buffers changes exactly its bytes.** -/
theorem dramWrite_spec {d : Dram} (h : d.RowsOk) {a : Word} {len : ℕ} (h4 : len ≤ 4)
    (ha : a.toNat + len ≤ hwMemSize) (h1 : 1 ≤ len) (data : Word) :
    ∃ d', dramWrite junk d a len data = some d' ∧ d'.RowsOk ∧
      ∀ b : Word, b.toNat < hwMemSize → d'.byteAt b =
        if a.toNat ≤ b.toNat ∧ b.toNat < a.toNat + len then byte data (b.toNat - a.toNat)
        else d.byteAt b := by
  set temp : ℕ → Byte := fun i =>
    if a.toNat % 8 ≤ i ∧ i < a.toNat % 8 + 4 then byte data (i - a.toNat % 8) else junk i with htemp
  set mask : ℕ → Bool := fun i => decide (a.toNat % 8 ≤ i ∧ i < a.toNat % 8 + len) with hmask
  obtain ⟨d1, hw1, hok1, hb1⟩ := ddr3Write_spec h (a := a) (by omega) temp mask
  simp only [hwMemSize] at ha
  by_cases hx : a.toNat % 8 + len > 8
  · have ha8 : (a + 8).toNat = a.toNat + 8 := toNat_add_ofNat (a := a) (i := 8) (by omega)
    obtain ⟨d2, hw2, hok2, hb2⟩ := ddr3Write_spec hok1 (a := a + 8)
      (by rw [ha8, hwMemSize]; omega) (fun i => temp (8 + i)) (fun i => mask (8 + i))
    have hrun : dramWrite junk d a len data = some d2 := by
      simp only [dramWrite, ← htemp, ← hmask, hw1, hx, Option.bind_eq_bind, Option.bind_some,
        ↓reduceIte]
      exact hw2
    refine ⟨d2, hrun, hok2, fun b hb => ?_⟩
    rw [hb2 b hb, hb1 b hb, ha8]
    by_cases hin : a.toNat ≤ b.toNat ∧ b.toNat < a.toNat + len
    · rw [if_pos hin]
      by_cases hlo : b.toNat / 8 = a.toNat / 8
      · rw [if_neg (by omega), if_pos ⟨hlo, by simp [hmask]; omega⟩]
        simp only [htemp]
        rw [if_pos (by omega), show b.toNat % 8 - a.toNat % 8 = b.toNat - a.toNat by omega]
      · rw [if_pos ⟨by omega, by simp [hmask]; omega⟩]
        simp only [htemp]
        rw [if_pos (by omega), show 8 + b.toNat % 8 - a.toNat % 8 = b.toNat - a.toNat by omega]
    · rw [if_neg hin, if_neg, if_neg]
      · simp only [hmask, decide_eq_true_eq]; omega
      · simp only [hmask, decide_eq_true_eq]; omega
  · have hrun : dramWrite junk d a len data = some d1 := by
      simp only [dramWrite, ← htemp, ← hmask, hw1, hx, Option.bind_eq_bind, Option.bind_some,
        ↓reduceIte]
      rfl
    refine ⟨d1, hrun, hok1, fun b hb => ?_⟩
    rw [hb1 b hb]
    by_cases hin : a.toNat ≤ b.toNat ∧ b.toNat < a.toNat + len
    · rw [if_pos hin, if_pos ⟨by omega, by simp [hmask]; omega⟩]
      simp only [htemp]
      rw [if_pos (by omega), show b.toNat % 8 - a.toNat % 8 = b.toNat - a.toNat by omega]
    · rw [if_neg hin, if_neg]
      simp only [hmask, decide_eq_true_eq]; omega

end Spec

/-! ### Runs of calls -/

/-- A call of `dram_read` or `dram_write`, with what the stack holds in its
`temp`. -/
inductive DramCall where
  | read (junk : ℕ → Byte) (addr : Word) (len : ℕ)
  | write (junk : ℕ → Byte) (addr : Word) (len : ℕ) (data : Word)

namespace DramCall

/-- One to four bytes, all of them in the memory. -/
def Inside : DramCall → Prop
  | read _ addr len => 1 ≤ len ∧ len ≤ 4 ∧ addr.toNat + len ≤ hwMemSize
  | write _ addr len _ => 1 ≤ len ∧ len ≤ 4 ∧ addr.toNat + len ≤ hwMemSize

/-- What the call leaves. -/
def call (d : Dram) : DramCall → Option Dram
  | read junk addr len => (dramRead junk d addr len).map Prod.snd
  | write junk addr len data => dramWrite junk d addr len data

/-- The byte the call writes at `b`, if it writes one. -/
def written (b : Word) : DramCall → Option Byte
  | read .. => none
  | write _ addr len data =>
    if addr.toNat ≤ b.toNat ∧ b.toNat < addr.toNat + len then
      some (byte data (b.toNat - addr.toNat))
    else none

/-- One call keeps the row buffers and overwrites the bytes it writes. -/
theorem call_spec {d : Dram} (h : d.RowsOk) {c : DramCall} (hc : c.Inside) :
    ∃ d', c.call d = some d' ∧ d'.RowsOk ∧
      ∀ b : Word, b.toNat < hwMemSize → d'.byteAt b = (c.written b).getD (d.byteAt b) := by
  cases c with
  | read junk addr len =>
    obtain ⟨v, d', hrun, hok, hdram, -⟩ := dramRead_spec junk h hc.1 hc.2.1 hc.2.2
    refine ⟨d', by rw [call, hrun, Option.map_some], hok, fun b _ => ?_⟩
    rw [written, Option.getD_none, Dram.byteAt, Dram.byteAt, hdram]
  | write junk addr len data =>
    obtain ⟨d', hrun, hok, hbytes⟩ := dramWrite_spec junk h hc.2.1 hc.2.2 hc.1 data
    refine ⟨d', hrun, hok, fun b hb => ?_⟩
    rw [hbytes b hb, written]
    split_ifs <;> rfl

end DramCall

/-- The byte that the last of the calls to write at `b` wrote there. -/
def lastWritten (cs : List DramCall) (b : Word) : Option Byte :=
  cs.reverse.findSome? (DramCall.written b)

theorem lastWritten_cons (c : DramCall) (cs : List DramCall) (b : Word) :
    lastWritten (c :: cs) b = (lastWritten cs b).or (c.written b) := by
  rw [lastWritten, List.reverse_cons, List.findSome?_append, lastWritten]
  congr 1
  cases h : c.written b <;> simp [h]

/-- A run of calls keeps the row buffers and overwrites each byte with the
last one written there. -/
theorem foldlM_call_spec : ∀ {cs : List DramCall} {d : Dram}, d.RowsOk → (∀ c ∈ cs, c.Inside) →
    ∃ d', cs.foldlM DramCall.call d = some d' ∧ d'.RowsOk ∧
      ∀ b : Word, b.toNat < hwMemSize → d'.byteAt b = (lastWritten cs b).getD (d.byteAt b)
  | [], d, h, _ => ⟨d, rfl, h, fun _ _ => rfl⟩
  | c :: cs, d, h, hc => by
    obtain ⟨d₁, hrun₁, hok₁, hb₁⟩ := DramCall.call_spec h (hc c List.mem_cons_self)
    obtain ⟨d₂, hrun₂, hok₂, hb₂⟩ := foldlM_call_spec hok₁ fun x hx => hc x (List.mem_cons_of_mem c hx)
    refine ⟨d₂, ?_, hok₂, fun b hb => ?_⟩
    · rw [List.foldlM_cons, hrun₁]
      exact hrun₂
    · rw [hb₂ b hb, hb₁ b hb, lastWritten_cons]
      cases lastWritten cs b <;> rfl

/-- **The DRAM is a flat array.** After any run of calls from `init_ddr3` on,
each valid row buffer equals its row, a read returns the bytes last written
(the initial ones where none was), and a write changes exactly its bytes. -/
theorem dram_run (d : Dram) (cs : List DramCall) (hc : ∀ c ∈ cs, c.Inside) :
    ∃ d', cs.foldlM DramCall.call d.initDdr3 = some d' ∧ d'.RowsOk ∧
      (∀ (junk : ℕ → Byte) (a : Word) (len : ℕ), 1 ≤ len → len ≤ 4 → a.toNat + len ≤ hwMemSize →
        ∃ v d'', dramRead junk d' a len = some (v, d'') ∧ d''.RowsOk ∧ d''.dram = d'.dram ∧
          ∀ i < len, byte v i =
            (lastWritten cs (a + BitVec.ofNat 32 i)).getD (d.byteAt (a + BitVec.ofNat 32 i))) ∧
      ∀ (junk : ℕ → Byte) (a : Word) (len : ℕ) (data : Word), 1 ≤ len → len ≤ 4 →
        a.toNat + len ≤ hwMemSize →
        ∃ d'', dramWrite junk d' a len data = some d'' ∧ d''.RowsOk ∧
          ∀ b : Word, b.toNat < hwMemSize → d''.byteAt b =
            if a.toNat ≤ b.toNat ∧ b.toNat < a.toNat + len then byte data (b.toNat - a.toNat)
            else d'.byteAt b := by
  obtain ⟨d', hrun, hok, hbytes⟩ := foldlM_call_spec (Dram.rowsOk_initDdr3 d) hc
  refine ⟨d', hrun, hok, fun junk a len h1 h4 ha => ?_, fun junk a len data h1 h4 ha =>
    dramWrite_spec junk hok h4 ha h1 data⟩
  obtain ⟨v, d'', hread, hok', hdram, hv⟩ := dramRead_spec junk hok h1 h4 ha
  refine ⟨v, d'', hread, hok', hdram, fun i hi => ?_⟩
  have hai : (a + BitVec.ofNat 32 i).toNat = a.toNat + i :=
    toNat_add_ofNat (by simp only [hwMemSize] at ha; omega)
  rw [hv i hi, hbytes _ (by omega), Dram.byteAt_initDdr3]

/-- A write that crosses a burst, and a read of one of its bytes. -/
theorem dram_run_cross : ∃ d',
    [DramCall.write (fun _ => 0xAA) 6#32 4 0x44332211#32, DramCall.read (fun _ => 0) 7#32 2].foldlM
      DramCall.call (Dram.initDdr3 ⟨fun _ _ _ _ => 0, fun _ _ => ⟨fun _ => 0, 0, true⟩⟩) = some d' ∧
    ∃ v d'', dramRead (fun _ => 0) d' 9#32 1 = some (v, d'') ∧ byte v 0 = 0x44#8 := by
  obtain ⟨d', hrun, -, hread, -⟩ := dram_run ⟨fun _ _ _ _ => 0, fun _ _ => ⟨fun _ => 0, 0, true⟩⟩
    [DramCall.write (fun _ => 0xAA) 6#32 4 0x44332211#32, DramCall.read (fun _ => 0) 7#32 2] (by
      intro c hc
      simp only [List.mem_cons, List.not_mem_nil, or_false] at hc
      rcases hc with rfl | rfl <;> exact ⟨by decide, by decide, by decide⟩)
  obtain ⟨v, d'', hv, -, -, hb⟩ := hread (fun _ => 0) 9#32 1 le_rfl (by decide) (by decide)
  exact ⟨d', hrun, v, d'', hv, (hb 0 (by decide)).trans (by decide)⟩

end Nemu
