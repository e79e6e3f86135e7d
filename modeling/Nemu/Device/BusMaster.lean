/-
# The bus master

`bmr_io_handler` of `ide.c`: the start of a DMA read fetches the one entry of
the descriptor table with `hwaddr_read` and lets `fread` store the sectors into
`hw_mem`, below the caches and the row buffers. The CPU then finds the new bytes
exactly where nothing above the array holds the old ones (`bmr_coherent_iff`).
What is above it when the transfer starts is told by the directory of the caches
and the open rows of the state before the command, and where the descriptor is.

The IRQ that ends the command is left out. What `fread` stores past the end of
`hw_mem` is undefined and ends the run.

Key definitions: `BusMaster`, `readPrd`, `bmrIoHandler`, `Uncached`,
`layersForPrd`, `DmaCoherent`.
Key theorems: `lookup_array`, `lookup_dmaCopy`, `bmr_coherent_iff`, `bmr_reads_stale`.
-/
import Nemu.Memory.Lookup
import Nemu.Memory.FlatMemory
import Nemu.Memory.OpenRows
import Nemu.Kernel.Disk

namespace Nemu

open Bytes

/-- Memory, the IDE device with the size of its image, and `bmr_base`. -/
structure BusMaster (δ : Type) where
  mem : Memory δ
  ide : Ide
  size : ℕ
  bmr : ℕ → Byte

/-- `n` bytes stored at `hwa_to_va(addr)`: `hw_mem` is the array of all ranks,
banks, rows and columns. -/
def dmaCopy (d : Dram) (addr n : ℕ) (src : ℕ → Byte) : Dram :=
  { d with dram := fun r b w c =>
      let k := ((r * 8 + b) * 1024 + w) * 1024 + c
      if addr ≤ k ∧ k < addr + n then src (k - addr) else d.dram r b w c }

section Handler

variable {δ : Type} (junk : ℕ → Byte) (oob : ℕ → ℕ → Byte)

/-- The entry of the descriptor table: the buffer's address, and the word with
its length and the end bit. -/
def readPrd (m : Memory δ) (prdtAddr : Word) : Option (Word × Word × Memory δ) := do
  let (addr, m) ← hwaddrRead junk oob m prdtAddr 4
  let (hiEntry, m) ← hwaddrRead junk oob m (prdtAddr + 4) 4
  return (addr, hiEntry, m)

namespace BusMaster

def prdtAddr (s : BusMaster δ) : Word := word (fun i => s.bmr (4 + i)) 4

/-- `disk_idx`: the shift drops what does not fit into 32 bits. -/
def diskIdx (s : BusMaster δ) : ℕ := (portSector s.ide.port <<< 9).toNat

end BusMaster

/-- `hi_entry & 0xffff`. -/
def byteCount (hiEntry : Word) : ℕ := (hiEntry &&& 0xffff).toNat

/-- `bmr_io_handler`, for the port `addr` counted from `BMR_PORT`. `fread`
stores what the image has; it returns 1 when that was all that was asked for,
and sees the end of the file when it was less, but not when nothing was asked
for. -/
def bmrIoHandler (s : BusMaster δ) (addr _len : ℕ) (isWrite : Bool) : Option (BusMaster δ) :=
  if isWrite = true ∧ addr = 0 ∧ s.bmr 0 &&& 0x1 ≠ 0 then
    if s.bmr 0 &&& 0x8 ≠ 0 then do
      let (addr, hiEntry, m) ← readPrd junk oob s.mem s.prdtAddr
      let stored := min (byteCount hiEntry) (s.size - s.diskIdx)
      if addr.toNat + stored ≤ hwMemSize ∧ byteCount hiEntry ≠ 0 ∧
          hiEntry &&& 0x80000000 ≠ 0 then
        some { s with
          mem := { m with cache := { m.cache with
            dram := dmaCopy m.cache.dram addr.toNat stored fun i => s.ide.disk (s.diskIdx + i) } }
          ide := { s.ide with
            pos := s.diskIdx + stored
            port := Function.update s.ide.port 7 0x40 } }
      else none
    else none
  else some s

/-- The byte that `hwaddr_read` returns. -/
def hwaddrByte (m : Memory δ) (a : Word) : Option Word := (hwaddrRead junk oob m a 1).map Prod.fst

end Handler

/-! ### The array below the caches -/

theorem byteAt_dmaCopy (d : Dram) (addr n : ℕ) (src : ℕ → Byte) {a : Word}
    (ha : a.toNat < hwMemSize) : (dmaCopy d addr n src).byteAt a =
      if addr ≤ a.toNat ∧ a.toNat < addr + n then src (a.toNat - addr) else d.byteAt a := by
  have hk : ((rankOf a * 8 + bankOf a) * 1024 + rowOf a) * 1024 + colOf a = a.toNat := by
    simp only [rankOf, bankOf, rowOf, colOf, hwMemSize] at ha ⊢
    omega
  simp only [Dram.byteAt, dmaCopy, hk]

/-- Nothing above the array holds the byte: a read goes down to it. -/
def Uncached (s : Hier) (a : Word) : Prop :=
  s.hit1 a = none ∧ s.hit2 a = none ∧ LineClean s a ∧ ¬ s.dram.Open a

instance (s : Hier) (a : Word) : Decidable (Uncached s a) := inferInstanceAs (Decidable (_ ∧ _))

section Coherence

variable {δ : Type} (junk : ℕ → Byte) (oob : ℕ → ℕ → Byte)

/-- The bytes that L2 serves, with another array below it. -/
theorem served2_dram (s : Hier) (a : Word) (d : Dram) (j : ℕ) :
    served2 oob { s with dram := d } a j =
      if s.hit2 a = none ∧ VictimClean s a then d.view (blockOf a + BitVec.ofNat 32 j)
      else served2 oob s a j := by
  have hvic : (({ s with dram := d } : Hier).victim2 (group2 a)).1 = (s.victim2 (group2 a)).1 :=
    victim2_congr rfl rfl
  by_cases hh : s.hit2 a = none
  · rw [served2_of_miss hh, served2_of_miss (s := { s with dram := d }) hh, hvic]
    by_cases hd : (s.l2 (group2 a) (s.victim2 (group2 a)).1).dirty = true
    · rw [if_pos hd, if_pos hd, if_neg fun h => by rw [h.2 hh] at hd; nomatch hd]
      rfl
    · rw [if_neg hd, if_pos ⟨hh, fun _ => Bool.eq_false_iff.mpr hd⟩]
  · obtain ⟨x, hx⟩ := Option.ne_none_iff_exists'.mp hh
    rw [if_neg fun h => hh h.1, served2_of_hit hx, served2_of_hit (s := { s with dram := d }) hx]

/-- **What the CPU finds after the array was written**: the new byte where
nothing above the array holds the old one. -/
theorem lookup_array (s : Hier) (a : Word) (f : ℕ → ℕ → ℕ → ℕ → Byte) :
    lookup oob { s with dram := { s.dram with dram := f } } a =
      if Uncached s a then f (rankOf a) (bankOf a) (rowOf a) (colOf a) else lookup oob s a := by
  set d : Dram := { s.dram with dram := f }
  unfold lookup served1
  rw [show ({ s with dram := d } : Hier).hit1 a = s.hit1 a from rfl]
  cases h1 : s.hit1 a with
  | some x =>
    rw [if_neg fun h => by rw [Uncached, h1] at h; nomatch h.1]
  | none =>
    set u := (s.victim1 (group1 a)).2 with hu
    have hu' : (({ s with dram := d } : Hier).victim1 (group1 a)).2 = { u with dram := d } := by
      rw [hu]
      unfold Hier.victim1
      dsimp only
      split <;> rfl
    have hdram : u.dram = s.dram := by rw [hu, Hier.victim1_snd]
    have hhit : u.hit2 a = s.hit2 a := by rw [hu, Hier.victim1_snd]; rfl
    have hblock : blockOf a + BitVec.ofNat 32 (offsetOf a) = a := by
      apply BitVec.eq_of_toNat_eq
      rw [offsetOf, toNat_block_add a (Nat.mod_lt _ (by norm_num)), Nat.div_add_mod']
    have hopen : d.Open a ↔ s.dram.Open a := Iff.rfl
    have hunc : Uncached s a ↔ (u.hit2 a = none ∧ VictimClean u a) ∧ ¬ s.dram.Open a := by
      rw [Uncached, hhit]
      constructor
      · rintro ⟨-, h2, hc, ho⟩
        exact ⟨⟨h2, hc h1⟩, ho⟩
      · rintro ⟨⟨h2, hc⟩, ho⟩
        exact ⟨h1, h2, fun _ => hc, ho⟩
    dsimp only
    rw [hu', served2_dram, hblock]
    by_cases hc : u.hit2 a = none ∧ VictimClean u a
    · rw [if_pos hc]
      by_cases ho : s.dram.Open a
      · rw [if_neg fun h => (hunc.mp h).2 ho]
        have hself : served2 oob u a (offsetOf a) = _ := served2_dram oob u a u.dram (offsetOf a)
        have hserved : served2 oob u a (offsetOf a) = s.dram.view a := by
          rw [hself, if_pos hc, hblock, hdram]
        rw [hserved, Dram.view, Dram.view, if_pos ho, if_pos (hopen.mpr ho)]
      · rw [if_pos (hunc.mpr ⟨hc, ho⟩), Dram.view, if_neg (fun h => ho (hopen.mp h))]
        rfl
    · rw [if_neg hc, if_neg fun h => hc (hunc.mp h).1]

theorem lookup_of_uncached {s : Hier} {a : Word} (h : Uncached s a) :
    lookup oob s a = s.dram.byteAt a := by
  have hself : lookup oob s a = _ := lookup_array oob s a s.dram.dram
  rw [hself, if_pos h]
  rfl

theorem lookup_dmaCopy (s : Hier) {a : Word} (ha : a.toNat < hwMemSize) (addr n : ℕ)
    (src : ℕ → Byte) : lookup oob { s with dram := dmaCopy s.dram addr n src } a =
      if Uncached s a ∧ addr ≤ a.toNat ∧ a.toNat < addr + n then src (a.toNat - addr)
      else lookup oob s a := by
  have hbyte := byteAt_dmaCopy s.dram addr n src ha
  rw [dmaCopy, lookup_array]
  by_cases hu : Uncached s a
  · rw [if_pos hu]
    refine Eq.trans hbyte ?_
    rw [← lookup_of_uncached oob hu]
    exact if_congr (by simp [hu]) rfl rfl
  · rw [if_neg hu, if_neg fun h => hu h.1]

variable {junk oob} in
/-- The descriptor is two words. -/
theorem readPrd_reads {m m' : Memory δ} {p buf hi : Word} (h : readPrd junk oob m p = some (buf, hi, m')) :
    ∃ m₁, hwaddrRead junk oob m p 4 = some (buf, m₁) ∧ hwaddrRead junk oob m₁ (p + 4) 4 = some (hi, m') := by
  obtain ⟨⟨v, m₁⟩, h₁, h⟩ := Option.bind_eq_some_iff.mp h
  obtain ⟨⟨w, m₂⟩, h₂, h⟩ := Option.bind_eq_some_iff.mp h
  obtain ⟨hv, hrest⟩ := Prod.mk.inj (Option.some.inj h)
  obtain ⟨hw, hm⟩ := Prod.mk.inj hrest
  subst hv hw hm
  exact ⟨m₁, h₁, h₂⟩

variable {junk oob} in
/-- The descriptor is read without a change to the maps. -/
theorem isMmio_readPrd {m m' : Memory δ} {p buf hi : Word}
    (h : readPrd junk oob m p = some (buf, hi, m')) (a : Word) :
    isMmio m'.mmio a = isMmio m.mmio a := by
  obtain ⟨m₁, h₁, h₂⟩ := readPrd_reads h
  rw [isMmio, isMmio, maps_hwaddrRead junk oob h₂, maps_hwaddrRead junk oob h₁]

/-- What `hwaddr_read` does to the layers above the array. -/
def layersHwRead (m : Mmio δ) (l : Layers) (a : Word) (len : ℕ) : Option Layers :=
  if isMmio m a = none then l.read a len else some l

/-- The layers once the descriptor is read, from those before. -/
def layersForPrd (m : Mmio δ) (l : Layers) (p : Word) : Option Layers := do
  let l ← layersHwRead m l p 4
  layersHwRead m l (p + 4) 4

/-- A read of RAM does what is known to the layers, one of a device nothing. -/
theorem layers_hwaddrRead {m m' : Memory δ} {a v : Word} {n : ℕ}
    (h : hwaddrRead junk oob m a n = some (v, m')) :
    layersHwRead m.mmio m.cache.layers a n = some m'.cache.layers := by
  unfold layersHwRead
  cases hm : isMmio m.mmio a with
  | none =>
    rw [hwaddrRead_eq junk oob hm] at h
    obtain ⟨⟨w, c⟩, hr, h⟩ := Option.bind_eq_some_iff.mp h
    obtain ⟨-, rfl⟩ := Prod.mk.inj (Option.some.inj h)
    rw [if_pos rfl]
    exact layers_cache1Read hr
  | some p =>
    unfold hwaddrRead at h
    rw [hm] at h
    obtain ⟨_, -, h⟩ := Option.bind_eq_some_iff.mp h
    obtain ⟨-, rfl⟩ := Prod.mk.inj (Option.some.inj h)
    rfl

variable {junk oob} in
/-- **The layers when the transfer starts** are told by those before the command. -/
theorem layers_readPrd {m m' : Memory δ} {p buf hi : Word}
    (h : readPrd junk oob m p = some (buf, hi, m')) :
    layersForPrd m.mmio m.cache.layers p = some m'.cache.layers := by
  obtain ⟨m₁, h₁, h₂⟩ := readPrd_reads h
  have hmaps : layersHwRead m₁.mmio = layersHwRead m.mmio := by
    funext l a n
    rw [layersHwRead, layersHwRead, isMmio, isMmio, maps_hwaddrRead junk oob h₁]
  unfold layersForPrd
  rw [layers_hwaddrRead junk oob h₁, Option.bind_eq_bind, Option.bind_some, ← hmaps,
    layers_hwaddrRead junk oob h₂]

/-- What the CPU should see: the `n` bytes of `src` in the buffer, and every
other byte of RAM as before. -/
structure DmaCoherent (before after : Memory δ) (buf : Word) (n : ℕ) (src : ℕ → Byte) : Prop where
  buffer : ∀ i < n, hwaddrByte junk oob after (buf + BitVec.ofNat 32 i) =
    some ((src i).setWidth 32)
  others : ∀ a : Word, a.toNat < hwMemSize → isMmio before.mmio a = none →
    ¬ (buf.toNat ≤ a.toNat ∧ a.toNat < buf.toNat + n) →
    hwaddrByte junk oob after a = hwaddrByte junk oob before a

theorem setWidth_inj {b c : Byte} : some (b.setWidth 32) = some (c.setWidth 32) ↔ b = c := by
  constructor
  · intro h
    have h0 := congrArg (fun w => byte w 0) (Option.some.inj h)
    simpa [byte_setWidth] using h0
  · rintro rfl
    rfl

namespace BusMaster

/-- The state after a transfer of `n` bytes to `buf` that starts in memory `m`. -/
def transferred (s : BusMaster δ) (m : Memory δ) (buf : Word) (n : ℕ) : BusMaster δ :=
  { s with
    mem := { m with cache := { m.cache with
      dram := dmaCopy m.cache.dram buf.toNat n fun i => s.ide.disk (s.diskIdx + i) } }
    ide := { s.ide with
      pos := s.diskIdx + n
      port := Function.update s.ide.port 7 0x40 } }

/-- The place of the sector that the command asks for. -/
def sectorStart (s : BusMaster δ) : ℕ := 512 * (portSector s.ide.port).toNat

/-- The same state with another image of this size. -/
def withImage (s : BusMaster δ) (disk : ℕ → Byte) : BusMaster δ := { s with ide := { s.ide with disk := disk } }

/-- The image is read from the sector's place, or 2^32 · k bytes before it. -/
theorem diskIdx_le (s : BusMaster δ) : s.diskIdx ≤ s.sectorStart := by
  rw [sectorStart, diskIdx, BitVec.toNat_shiftLeft, Nat.shiftLeft_eq, Nat.mul_comm]
  exact Nat.mod_le _ _

variable {junk oob} in
/-- The command completes when the image covers the transfer. -/
theorem run_command {s : BusMaster δ} {buf hi : Word} {m : Memory δ} (len : ℕ)
    (hcmd : s.bmr 0 &&& 0x1 ≠ 0 ∧ s.bmr 0 &&& 0x8 ≠ 0)
    (hprd : readPrd junk oob s.mem s.prdtAddr = some (buf, hi, m))
    (hend : hi &&& 0x80000000 ≠ 0) (hcount : 0 < byteCount hi)
    (hram : buf.toNat + byteCount hi ≤ hwMemSize)
    (hdisk : s.diskIdx + byteCount hi ≤ s.size) :
    bmrIoHandler junk oob s 0 len true = some (s.transferred m buf (byteCount hi)) := by
  have hstored : min (byteCount hi) (s.size - s.diskIdx) = byteCount hi := by omega
  unfold bmrIoHandler
  rw [if_pos ⟨rfl, rfl, hcmd.1⟩, if_pos hcmd.2, hprd]
  simp only [Option.bind_eq_bind, Option.bind_some, hstored]
  rw [if_pos ⟨hram, by omega, hend⟩]
  rfl

/-- What the CPU reads after the transfer. -/
theorem hwaddrByte_transferred (s : BusMaster δ) (m : Memory δ) (buf : Word) (n : ℕ) {a : Word}
    (ha : a.toNat < hwMemSize) (hm : isMmio m.mmio a = none) :
    hwaddrByte junk oob (s.transferred m buf n).mem a =
      some ((if Uncached m.cache a ∧ buf.toNat ≤ a.toNat ∧ a.toNat < buf.toNat + n
        then s.ide.disk (s.diskIdx + (a.toNat - buf.toNat))
        else lookup oob m.cache a).setWidth 32) := by
  rw [hwaddrByte, hwaddrRead_lookup junk oob ha (by exact hm)]
  exact congrArg (fun b : Byte => some (b.setWidth 32)) (lookup_dmaCopy oob m.cache ha _ _ _)

/-- The transfer itself changes no byte beside the buffer. -/
theorem hwaddrByte_beside (s : BusMaster δ) (m : Memory δ) (buf : Word) (n : ℕ) {a : Word}
    (ha : a.toNat < hwMemSize) (hm : isMmio m.mmio a = none)
    (hout : ¬ (buf.toNat ≤ a.toNat ∧ a.toNat < buf.toNat + n)) :
    hwaddrByte junk oob (s.transferred m buf n).mem a = hwaddrByte junk oob m a := by
  rw [s.hwaddrByte_transferred junk oob m buf n ha hm, if_neg fun h => hout h.2, hwaddrByte,
    hwaddrRead_lookup junk oob ha hm]

/-- For one image, it is each byte of the buffer that counts. -/
theorem coherent_transferred_iff {s : BusMaster δ} {m : Memory δ} {buf : Word} {n : ℕ}
    (hsize : buf.toNat + n ≤ hwMemSize)
    (hmmio : ∀ i < n, isMmio m.mmio (buf + BitVec.ofNat 32 i) = none) (src : ℕ → Byte) :
    DmaCoherent junk oob m (s.transferred m buf n).mem buf n src ↔
      ∀ i < n, if m.cache.layers.Bare (buf + BitVec.ofNat 32 i) then s.ide.disk (s.diskIdx + i) = src i
        else hwaddrByte junk oob m (buf + BitVec.ofNat 32 i) = some ((src i).setWidth 32) := by
  have hbuffer : ∀ i < n, hwaddrByte junk oob (s.transferred m buf n).mem (buf + BitVec.ofNat 32 i) =
      some ((src i).setWidth 32) ↔ if m.cache.layers.Bare (buf + BitVec.ofNat 32 i)
        then s.ide.disk (s.diskIdx + i) = src i
        else hwaddrByte junk oob m (buf + BitVec.ofNat 32 i) = some ((src i).setWidth 32) := by
    intro i hi
    have hi32 : (buf + BitVec.ofNat 32 i).toNat = buf.toNat + i :=
      toNat_add_ofNat (by simp only [hwMemSize] at hsize; omega)
    rw [s.hwaddrByte_transferred junk oob m buf n (by omega) (hmmio i hi), hwaddrByte,
      hwaddrRead_lookup junk oob (by omega) (hmmio i hi), setWidth_inj, setWidth_inj, hi32,
      Nat.add_sub_cancel_left]
    by_cases hu : Uncached m.cache (buf + BitVec.ofNat 32 i)
    · rw [if_pos ⟨hu, by omega, by omega⟩, if_pos (bare_iff.mpr hu)]
    · rw [if_neg fun h => hu h.1, if_neg fun h => hu (bare_iff.mp h)]
  constructor
  · exact fun h i hi => (hbuffer i hi).mp (h.buffer i hi)
  · refine fun h => ⟨fun i hi => (hbuffer i hi).mpr (h i hi), fun a ha hma hout => ?_⟩
    exact s.hwaddrByte_beside junk oob m buf n ha hma hout

/-- For all of them, it is the layers and the place. -/
theorem coherent_images_iff {s : BusMaster δ} {m : Memory δ} {buf : Word} {n : ℕ} (hn : 0 < n)
    (hsize : buf.toNat + n ≤ hwMemSize)
    (hmmio : ∀ i < n, isMmio m.mmio (buf + BitVec.ofNat 32 i) = none) :
    (∀ disk, DmaCoherent junk oob m ((s.withImage disk).transferred m buf n).mem buf n
        fun i => disk (s.sectorStart + i)) ↔
      (∀ i < n, m.cache.layers.Bare (buf + BitVec.ofNat 32 i)) ∧ s.diskIdx = s.sectorStart := by
  have himage : ∀ disk : ℕ → Byte, (s.withImage disk).diskIdx = s.diskIdx := fun _ => rfl
  constructor
  · intro h
    have hbare : ∀ i < n, m.cache.layers.Bare (buf + BitVec.ofNat 32 i) := by
      intro i hi
      by_contra hnot
      -- one old byte cannot be the image's whatever the image holds
      have h0 := (coherent_transferred_iff junk oob hsize hmmio _).mp (h fun _ => 0) i hi
      have h1 := (coherent_transferred_iff junk oob hsize hmmio _).mp (h fun _ => 1) i hi
      rw [if_neg hnot] at h0 h1
      exact absurd (setWidth_inj.mp (h0.symm.trans h1)) (by decide)
    refine ⟨hbare, ?_⟩
    by_contra hne
    have hat := (coherent_transferred_iff junk oob hsize hmmio _).mp
      (h fun k => if k = s.sectorStart then 1 else 0) 0 hn
    rw [if_pos (hbare 0 hn)] at hat
    change (if s.diskIdx = s.sectorStart then (1 : Byte) else 0) = if s.sectorStart = s.sectorStart then 1 else 0 at hat
    rw [if_neg hne, if_pos rfl] at hat
    exact absurd hat (by decide)
  · rintro ⟨hbare, hidx⟩ disk
    refine (coherent_transferred_iff junk oob hsize hmmio _).mpr fun i hi => ?_
    rw [if_pos (hbare i hi), himage, hidx]
    rfl

end BusMaster

variable {junk oob} in
/-- The last byte that a run of reads returns is what `hwaddr_read` returns there. -/
theorem hwaddrByte_of_run {m m' : Memory δ} {a x : Word} (h : runMem junk oob m [.read a 1] = some ([x], m')) :
    hwaddrByte junk oob m a = some x := by
  obtain ⟨⟨v, m₁⟩, hv, h⟩ := Option.bind_eq_some_iff.mp h
  obtain ⟨hx, -⟩ := Prod.mk.inj (Option.some.inj h)
  rw [hwaddrByte, hv, ← List.head_eq_of_cons_eq hx]
  rfl

variable {junk oob} in
/-- In a coherent state, the descriptor's fetch changes no byte that is read
before and after it without the loss of a dirty line. -/
theorem hwaddrByte_readPrd {m m' : Memory δ} {mem : Flat} {p buf hi a : Word}
    (h : readPrd junk oob m p = some (buf, hi, m')) (hcoh : Coherent mem m.cache)
    (hprd : InRam m.mmio p 4 ∧ InRam m.mmio (p + 4) 4) (ha : InRam m.mmio a 1)
    (hbefore : CleanRun junk oob m [.read a 1])
    (hafter : CleanRun junk oob m [.read p 4, .read (p + 4) 4, .read a 1]) :
    hwaddrByte junk oob m' a = hwaddrByte junk oob m a := by
  obtain ⟨m₁, h₁, h₂⟩ := readPrd_reads h
  -- both runs read the byte of the flat memory
  obtain ⟨u, hu⟩ := runMem_of_coherent [.read a 1] hcoh (List.forall_mem_singleton.mpr ha) hbefore
  obtain ⟨t, ht⟩ := runMem_of_coherent [.read p 4, .read (p + 4) 4, .read a 1] hcoh
    (List.forall_mem_cons.mpr ⟨hprd.1, List.forall_mem_cons.mpr ⟨hprd.2, List.forall_mem_singleton.mpr ha⟩⟩) hafter
  rw [runMem, h₁, Option.bind_eq_bind, Option.bind_some] at ht
  obtain ⟨⟨vs, m₂⟩, hvs, ht⟩ := Option.bind_eq_some_iff.mp ht
  obtain ⟨hvs', -⟩ := Prod.mk.inj (Option.some.inj ht)
  rw [runMem, h₂, Option.bind_eq_bind, Option.bind_some] at hvs
  obtain ⟨⟨xs, m₃⟩, hxs, hvs⟩ := Option.bind_eq_some_iff.mp hvs
  obtain ⟨rfl, -⟩ := Prod.mk.inj (Option.some.inj hvs)
  obtain rfl := List.tail_eq_of_cons_eq (List.tail_eq_of_cons_eq hvs')
  exact (hwaddrByte_of_run hxs).trans (hwaddrByte_of_run hu).symm

/-- **A DMA read is coherent with the CPU's view**, whatever the image holds,
exactly when no byte of the buffer is in a layer above the array, and the image
is read where it should be; for one image, a byte above the array may also read
as the image's before the transfer. The layers `l` are told by those before the
command. The transfer changes no other byte, and in a coherent state the fetch of
the descriptor changes none that is read without the loss of a dirty line. -/
theorem bmr_coherent_iff {s : BusMaster δ} {buf hi : Word} {m : Memory δ} (len : ℕ)
    (hcmd : s.bmr 0 &&& 0x1 ≠ 0 ∧ s.bmr 0 &&& 0x8 ≠ 0)
    (hprd : readPrd junk oob s.mem s.prdtAddr = some (buf, hi, m))
    (hend : hi &&& 0x80000000 ≠ 0) (hcount : 0 < byteCount hi)
    (hram : buf.toNat + byteCount hi ≤ hwMemSize ∧
      ∀ i < byteCount hi, isMmio s.mem.mmio (buf + BitVec.ofNat 32 i) = none)
    (hdisk : s.sectorStart + byteCount hi ≤ s.size) :
    ∃ l, layersForPrd s.mem.mmio s.mem.cache.layers s.prdtAddr = some l ∧
      ((∀ disk, ∃ s', bmrIoHandler junk oob (s.withImage disk) 0 len true = some s' ∧
          DmaCoherent junk oob m s'.mem buf (byteCount hi) fun i => disk (s.sectorStart + i)) ↔
        (∀ i < byteCount hi, l.Bare (buf + BitVec.ofNat 32 i)) ∧ s.diskIdx = s.sectorStart) ∧
      ∃ s', bmrIoHandler junk oob s 0 len true = some s' ∧
        (DmaCoherent junk oob m s'.mem buf (byteCount hi) (fun i => s.ide.disk (s.sectorStart + i)) ↔
          ∀ i < byteCount hi, if l.Bare (buf + BitVec.ofNat 32 i)
            then s.ide.disk (s.diskIdx + i) = s.ide.disk (s.sectorStart + i)
            else hwaddrByte junk oob m (buf + BitVec.ofNat 32 i) =
              some ((s.ide.disk (s.sectorStart + i)).setWidth 32)) ∧
        ∀ mem a, Coherent mem s.mem.cache → ¬ (buf.toNat ≤ a.toNat ∧ a.toNat < buf.toNat + byteCount hi) →
          InRam s.mem.mmio s.prdtAddr 4 ∧ InRam s.mem.mmio (s.prdtAddr + 4) 4 → InRam s.mem.mmio a 1 →
          CleanRun junk oob s.mem [.read a 1] →
          CleanRun junk oob s.mem [.read s.prdtAddr 4, .read (s.prdtAddr + 4) 4, .read a 1] →
          hwaddrByte junk oob s'.mem a = hwaddrByte junk oob s.mem a := by
  obtain ⟨hsize, hmmio⟩ := hram
  have hdisk' : s.diskIdx + byteCount hi ≤ s.size := by
    have := s.diskIdx_le
    omega
  have hmmio' : ∀ i < byteCount hi, isMmio m.mmio (buf + BitVec.ofNat 32 i) = none :=
    fun i hi' => (isMmio_readPrd hprd _).trans (hmmio i hi')
  have hrun : ∀ disk, bmrIoHandler junk oob (s.withImage disk) 0 len true =
      some ((s.withImage disk).transferred m buf (byteCount hi)) :=
    fun disk => BusMaster.run_command len hcmd hprd hend hcount hsize hdisk'
  refine ⟨_, layers_readPrd hprd, ?_, _, hrun s.ide.disk,
    BusMaster.coherent_transferred_iff junk oob hsize hmmio' _, fun mem a hcoh hout hprd' hin hbefore hafter => ?_⟩
  · rw [← BusMaster.coherent_images_iff junk oob hcount hsize hmmio']
    refine forall_congr' fun disk => ?_
    constructor
    · rintro ⟨s', hs', h⟩
      obtain rfl := Option.some.inj ((hrun disk).symm.trans hs')
      exact h
    · exact fun h => ⟨_, hrun disk, h⟩
  · rw [BusMaster.hwaddrByte_beside junk oob _ m buf _ (by have := hin.2.2.1; omega)
      ((isMmio_readPrd hprd a).trans hin.isMmio) hout]
    exact hwaddrByte_readPrd hprd hcoh hprd' hin hbefore hafter

end Coherence

/-! ### Two buffers -/

/-- L1 holds a descriptor at 0x1000, of one byte at 0x2000; the image holds
ones. -/
def freshBusMaster : BusMaster Unit where
  mem := { blankMemory with cache := { blankMemory.cache with
    l1 := fun g x =>
      if g = 64 ∧ x = 0 then ⟨true, 0, fun i => if i = 1 then 0x20 else if i = 4 then 1 else
        if i = 7 then 0x80 else 0⟩
      else ⟨false, 0, fun _ => 0⟩ } }
  ide :=
    { port := fun i => if i = 7 then 0xc8 else 0
      pos := 0
      byteCnt := 0
      ideWrite := false
      disk := fun _ => 1 }
  size := 512
  bmr := fun i => if i = 0 then 0x9 else if i = 5 then 0x10 else 0

theorem bmr_coherent_iff_fresh : ∃ m,
    readPrd (fun _ => 0) (fun _ _ => 0) freshBusMaster.mem freshBusMaster.prdtAddr =
      some (0x2000, 0x80000001, m) ∧
    ∀ disk, ∃ s', bmrIoHandler (fun _ => 0) (fun _ _ => 0) (freshBusMaster.withImage disk) 0 1 true = some s' ∧
      DmaCoherent (fun _ => 0) (fun _ _ => 0) m s'.mem 0x2000 1 fun i => disk (freshBusMaster.sectorStart + i) := by
  have hprd : readPrd (fun _ => 0) (fun _ _ => 0) freshBusMaster.mem freshBusMaster.prdtAddr =
    some (0x2000, 0x80000001, freshBusMaster.mem) := rfl
  obtain ⟨l, hl, hiff, -⟩ := bmr_coherent_iff (fun _ => 0) (fun _ _ => 0) (s := freshBusMaster) 1
    (by decide) hprd (by decide) (by decide)
    ⟨by decide, fun _ _ => isMmio_of_no_maps rfl _⟩ (by decide)
  refine ⟨_, hprd, hiff.mpr ⟨fun i hi => ?_, by decide⟩⟩
  obtain rfl : i = 0 := Nat.lt_one_iff.mp hi
  have hbare : (layersForPrd freshBusMaster.mem.mmio freshBusMaster.mem.cache.layers
      freshBusMaster.prdtAddr).all fun l => decide (l.Bare (0x2000 + BitVec.ofNat 32 0)) := by
    decide +kernel
  rw [hl] at hbare
  exact of_decide_eq_true hbare

/-- L1 holds the old byte at 0x2000, too. -/
def staleBusMaster : BusMaster Unit :=
  { freshBusMaster with
    mem := { freshBusMaster.mem with cache := freshBusMaster.mem.cache.setL1 0 0 ⟨true, 1, fun _ => 0⟩ } }

/-- The CPU reads the old byte. -/
theorem bmr_reads_stale : ∃ s',
    bmrIoHandler (fun _ => 0) (fun _ _ => 0) staleBusMaster 0 1 true = some s' ∧
      ¬ DmaCoherent (fun _ => 0) (fun _ _ => 0) staleBusMaster.mem s'.mem 0x2000 1
        (fun i => staleBusMaster.ide.disk (staleBusMaster.sectorStart + i)) := by
  refine ⟨_, rfl, fun h => ?_⟩
  exact absurd (h.buffer 0 one_pos) (by decide +kernel)

end Nemu
