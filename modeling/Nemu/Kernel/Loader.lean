/-
# The kernel's ELF loader

`elf.c`: `loader` reads the first 4096 bytes of the disk, walks the program
header table and loads each `PT_LOAD` segment at the address `mm_malloc`
returns. The cursor of the walk is `ph = ph + loop_var`: it visits the headers
0, 1, 3, 6, …, so the whole table is walked only when it has at most two
entries. After the walk `create_video_mapping` replaces the first entry of the
user directory, and what was loaded below 4 MB is gone (`loader_iff`).

Key definitions: `loadSegment`, `loadSegments`, `loader`, `image`, `breakOf`,
`Loaded`, `LoadsImage`.
Key theorems: `Loaded.loadSegment`, `Loaded.start`, `loader_iff`.
-/
import Nemu.Kernel.UserSpace
import Mathlib.Data.List.Induction
import Mathlib.Data.List.Perm.Basic

namespace Nemu

open Bytes Paging PageTables

/-! ### Copy loops -/

/-- `for(i = 0; i < n; i ++) addr[i] = f(i)`. -/
def storeLoop (mem : Word → Byte) (addr : Word) (f : ℕ → Byte) : ℕ → Word → Byte
  | 0 => mem
  | n + 1 => Function.update (storeLoop mem addr f n) (addr + BitVec.ofNat 32 n) (f n)

/-- `ide_read`: `read_byte(offset + i)` is the byte of the disk. -/
def ideRead (disk : Word → Byte) (mem : Word → Byte) (buf offset len : Word) : Word → Byte :=
  storeLoop mem buf (fun i => disk (offset + BitVec.ofNat 32 i)) len.toNat

def memset (mem : Word → Byte) (s : Word) (c : Byte) (n : Word) : Word → Byte :=
  storeLoop mem s (fun _ => c) n.toNat

theorem sub_eq_ofNat_iff {k a : Word} {n : ℕ} (hn : n < 2 ^ 32) :
    k = a + BitVec.ofNat 32 n ↔ (k - a).toNat = n := by
  constructor
  · rintro rfl
    rw [BitVec.add_comm, BitVec.add_sub_cancel, BitVec.toNat_ofNat, Nat.mod_eq_of_lt hn]
  · intro h
    rw [← h, BitVec.ofNat_toNat, BitVec.setWidth_eq, BitVec.add_comm, BitVec.sub_add_cancel]

/-- A copy loop writes exactly its `n` bytes. -/
theorem storeLoop_apply (mem : Word → Byte) (addr : Word) (f : ℕ → Byte) (k : Word) :
    ∀ n ≤ 2 ^ 32, storeLoop mem addr f n k =
      if (k - addr).toNat < n then f (k - addr).toNat else mem k
  | 0, _ => rfl
  | n + 1, hn => by
    have ih := storeLoop_apply mem addr f k n (by omega)
    rw [storeLoop, Function.update_apply]
    by_cases hk : k = addr + BitVec.ofNat 32 n
    · have hkn := (sub_eq_ofNat_iff (by omega)).mp hk
      rw [if_pos hk, hkn, if_pos (Nat.lt_succ_self n)]
    · have hkn : (k - addr).toNat ≠ n := fun h => hk ((sub_eq_ofNat_iff (by omega)).mpr h)
      rw [if_neg hk, ih]
      exact if_congr (by omega) rfl rfl

/-! ### The program header table -/

/-- The `Elf32_Phdr` fields the loader reads. -/
structure Phdr where
  pType : Word
  pOffset : Word
  pVaddr : Word
  pFilesz : Word
  pMemsz : Word

/-- A little-endian field of `n` bytes. -/
def field (b : Word → Byte) (off : Word) (n : ℕ) : Word :=
  word (fun i => b (off + BitVec.ofNat 32 i)) n

def phdrAt (b : Word → Byte) (ph : Word) : Phdr where
  pType := field b ph 4
  pOffset := field b (ph + 4) 4
  pVaddr := field b (ph + 8) 4
  pFilesz := field b (ph + 16) 4
  pMemsz := field b (ph + 20) 4

def eEntry (b : Word → Byte) : Word := field b 24 4
def ePhoff (b : Word → Byte) : Word := field b 28 4
def ePhnum (b : Word → Byte) : ℕ := (field b 44 2).toNat

/-! ### The loader -/

/-- The kernel state the loader acts on: memory, the user address space, the
program break and CR3. -/
structure KState (μ : Type) where
  mem : Word → Byte
  vm : UserSpace μ
  curBrk : Word
  maxBrk : Word
  cr3 : Word

section Loader

variable {μ : Type} (v : Vm μ) (disk junk : Word → Byte)

/-- The loop body, for the header `ph` points to. -/
def loadSegment (s : KState μ) (ph : Phdr) : KState μ :=
  if ph.pType = 1 then
    let (addr, vm) := v.malloc ph.pVaddr ph.pMemsz s.vm
    let mem := ideRead disk s.mem addr (0 + ph.pOffset) ph.pFilesz
    let mem := memset mem (addr + ph.pFilesz) 0 (ph.pMemsz - ph.pFilesz)
    let s := { s with mem := mem, vm := vm }
    let newBrk := ph.pVaddr + ph.pMemsz - 1
    if s.curBrk < newBrk then { s with curBrk := newBrk, maxBrk := newBrk } else s
  else s

/-- The loop from `loop_var` on, `n` rounds of it: the places it visits and
the state it leaves. `ph` is a place relative to `buf`. -/
def loadSegments (buf : Word → Byte) : ℕ → ℕ → Word → KState μ → List Word × KState μ
  | 0, _, _, s => ([], s)
  | n + 1, loopVar, ph, s =>
    let ph := ph + 32 * BitVec.ofNat 32 loopVar
    let s := loadSegment v disk s (phdrAt buf ph)
    let (phs, s) := loadSegments buf n (loopVar + 1) ph s
    (ph :: phs, s)

/-- `buf` after `ide_read`, by place: what lies outside it is `junk`. -/
def elfBuf : Word → Byte := ideRead disk junk 0 0 4096

/-- `loader`: the entry point, and the state when the user program starts. -/
def loader (s : KState μ) : Option (Word × KState μ) :=
  let buf := elfBuf disk junk
  if field buf 0 4 = 0x464c457f then
    let (_, s) := loadSegments v disk buf (ePhnum buf) 0 (ePhoff buf) s
    let entry := eEntry buf
    let (_, vm) := v.malloc (0xC0000000 - 0x100000) 0x100000 s.vm
    let vm := v.createVideoMapping vm
    some (entry, { s with vm := vm, cr3 := v.ucr3 })
  else none

/-! ### What loading means -/

/-- The user address `u` belongs to the segment. -/
def Phdr.Holds (h : Phdr) (u : Word) : Prop :=
  h.pType = 1 ∧ (u - h.pVaddr).toNat < h.pMemsz.toNat

instance (h : Phdr) (u : Word) : Decidable (h.Holds u) := inferInstanceAs (Decidable (_ ∧ _))

/-- The segment lies above the first 4 MB and outside the kernel's part. -/
def Phdr.InUser (h : Phdr) : Prop := ∀ u, h.Holds u → 2 ^ 22 ≤ u.toNat ∧ ¬ InKernel u

/-- What the segment puts there: a byte of the file, or zero. -/
def Phdr.byteAt (h : Phdr) (u : Word) : Byte :=
  if (u - h.pVaddr).toNat < h.pFilesz.toNat then disk (h.pOffset + (u - h.pVaddr)) else 0

/-- The user memory that the segments describe, a later one over an earlier
one. -/
def image (hs : List Phdr) : Word → Option Byte :=
  hs.foldl (fun img h u => if h.Holds u then some (h.byteAt disk u) else img u) fun _ => none

/-- The largest last byte of a segment. -/
def breakOf (hs : List Phdr) : ℕ :=
  hs.foldl (fun b h => if h.pType = 1 then max b (h.pVaddr + h.pMemsz - 1).toNat else b) 0

/-- The segments are in user memory, and no other byte has changed. -/
structure Loaded (hs : List Phdr) (s0 s : KState μ) : Prop where
  bytes : ∀ {u b}, image disk hs u = some b →
    ∃ k, v.kaddr s.vm u = some k ∧ ¬ Video k ∧ s.mem k = b
  other : ∀ {k}, (∀ u, image disk hs u ≠ none → v.kaddr s.vm u ≠ some k) →
    s.mem k = s0.mem k
  brk : s.curBrk.toNat = breakOf hs

theorem image_append (hs : List Phdr) (h : Phdr) (u : Word) :
    image disk (hs ++ [h]) u = if h.Holds u then some (h.byteAt disk u) else image disk hs u := by
  rw [image, List.foldl_append]
  rfl

/-- The image covers what the segments hold. -/
theorem image_ne_none_iff (hs : List Phdr) (u : Word) :
    image disk hs u ≠ none ↔ ∃ h ∈ hs, h.Holds u := by
  induction hs using List.reverseRecOn with
  | nil => simp [image]
  | append_singleton hs h ih =>
    rw [image_append]
    split_ifs with hu
    · exact iff_of_true (Option.some_ne_none _) ⟨h, by simp, hu⟩
    · rw [ih]
      simp [or_and_right, exists_or, hu]

theorem breakOf_append (hs : List Phdr) (h : Phdr) : breakOf (hs ++ [h]) =
    if h.pType = 1 then max (breakOf hs) (h.pVaddr + h.pMemsz - 1).toNat else breakOf hs := by
  rw [breakOf, List.foldl_append]
  rfl

/-- The bytes of one segment: the file part and the zeroes after it. -/
theorem loadSegment_mem {ph : Phdr} (hf : ph.pFilesz.toNat ≤ ph.pMemsz.toNat) (mem : Word → Byte)
    (addr k : Word) :
    memset (ideRead disk mem addr (0 + ph.pOffset) ph.pFilesz) (addr + ph.pFilesz) 0
        (ph.pMemsz - ph.pFilesz) k =
      if (k - addr).toNat < ph.pMemsz.toNat then ph.byteAt disk (ph.pVaddr + (k - addr))
      else mem k := by
  have hm := ph.pMemsz.isLt
  have hd := (k - addr).isLt
  have hn : (ph.pMemsz - ph.pFilesz).toNat = ph.pMemsz.toNat - ph.pFilesz.toNat :=
    BitVec.toNat_sub_of_le hf
  have hsub : k - (addr + ph.pFilesz) = k - addr - ph.pFilesz := by
    apply BitVec.eq_of_toNat_eq
    simp only [BitVec.toNat_sub, BitVec.toNat_add]
    omega
  have hlt : (k - addr - ph.pFilesz).toNat < ph.pMemsz.toNat - ph.pFilesz.toNat ↔
      ph.pFilesz.toNat ≤ (k - addr).toNat ∧ (k - addr).toNat < ph.pMemsz.toNat := by
    rw [BitVec.toNat_sub]
    omega
  have hoff : ph.pVaddr + (k - addr) - ph.pVaddr = k - addr := by
    rw [BitVec.add_comm, BitVec.add_sub_cancel]
  unfold memset ideRead
  rw [storeLoop_apply _ _ _ _ _ (by omega), storeLoop_apply _ _ _ _ _ (by omega), hsub, hn,
    Phdr.byteAt, hoff, show 0 + ph.pOffset = ph.pOffset from BitVec.zero_add _, BitVec.ofNat_toNat, BitVec.setWidth_eq]
  by_cases h1 : (k - addr).toNat < ph.pFilesz.toNat
  · rw [if_neg fun h => absurd (hlt.mp h).1 (by omega), if_pos h1, if_pos (by omega), if_pos h1]
  · by_cases h2 : (k - addr).toNat < ph.pMemsz.toNat
    · rw [if_pos (hlt.mpr ⟨by omega, h2⟩), if_pos h2, if_neg h1]
    · rw [if_neg fun h => h2 (hlt.mp h).2, if_neg h1, if_neg h2]

/-- Before the first segment. -/
theorem loaded_nil {s : KState μ} (hs : s.curBrk = 0) : Loaded v disk [] s s where
  bytes := fun hb => absurd hb (by simp [image])
  other := fun _ => rfl
  brk := by rw [hs]; rfl

variable {v disk} {Good : UserSpace μ → Prop}

theorem loadSegment_vm {s : KState μ} {ph : Phdr} (ht : ph.pType = 1) :
    (loadSegment v disk s ph).vm = (v.malloc ph.pVaddr ph.pMemsz s.vm).2 := by
  simp only [loadSegment, if_pos ht]
  split_ifs <;> rfl

theorem loadSegment_good (hv : v.Lawful Good) {s : KState μ} (hg : Good s.vm) (ph : Phdr) :
    Good (loadSegment v disk s ph).vm := by
  by_cases ht : ph.pType = 1
  · rw [loadSegment_vm ht]
    exact hv.good hg
  · rwa [loadSegment, if_neg ht]

/-- **One segment is loaded, over those before it.** -/
theorem Loaded.loadSegment (hv : v.Lawful Good) {hs : List Phdr} {s0 s : KState μ} (hg : Good s.vm)
    (h : Loaded v disk hs s0 s) {ph : Phdr}
    (hf : ph.pType = 1 → ph.pFilesz.toNat ≤ ph.pMemsz.toNat)
    (ha : ph.pType = 1 → v.Accessible Good ph.pVaddr ph.pMemsz) :
    Loaded v disk (hs ++ [ph]) s0 (loadSegment v disk s ph) := by
  by_cases ht : ph.pType = 1
  · set addr := (v.malloc ph.pVaddr ph.pMemsz s.vm).1
    set vm := (v.malloc ph.pVaddr ph.pMemsz s.vm).2
    set t := Nemu.loadSegment v disk s ph with htd
    have hvm : t.vm = vm := loadSegment_vm ht
    have hgv : Good vm := hv.good hg
    have hmem : ∀ k, t.mem k = if (k - addr).toNat < ph.pMemsz.toNat then
        ph.byteAt disk (ph.pVaddr + (k - addr)) else s.mem k := by
      intro k
      rw [← loadSegment_mem disk (hf ht)]
      simp only [htd, Nemu.loadSegment, if_pos ht]
      split_ifs <;> rfl
    -- where a byte of the segment is, and which byte is there
    have hplace : ∀ {u}, (u - ph.pVaddr).toNat < ph.pMemsz.toNat →
        v.kaddr vm u = some (addr + (u - ph.pVaddr)) := by
      intro u hu
      have hacc := ha ht s.vm hg _ hu
      rwa [BitVec.ofNat_toNat, BitVec.setWidth_eq, BitVec.add_comm, BitVec.sub_add_cancel] at hacc
    have hback : ∀ {k}, (k - addr).toNat < ph.pMemsz.toNat →
        v.kaddr vm (ph.pVaddr + (k - addr)) = some k := by
      intro k hk
      have hsub : ph.pVaddr + (k - addr) - ph.pVaddr = k - addr := by
        rw [BitVec.add_comm, BitVec.add_sub_cancel]
      rw [hplace (by rwa [hsub]), hsub, BitVec.add_comm, BitVec.sub_add_cancel]
    have hholds : ∀ {k}, (k - addr).toNat < ph.pMemsz.toNat → ph.Holds (ph.pVaddr + (k - addr)) := by
      intro k hk
      refine ⟨ht, ?_⟩
      rwa [BitVec.add_comm, BitVec.add_sub_cancel]
    refine ⟨fun {u b} hb => ?_, fun {k} hk => ?_, ?_⟩
    · rw [image_append] at hb
      rw [hvm]
      split_ifs at hb with hu
      · refine ⟨_, hplace hu.2, hv.ownPages hgv (hplace hu.2), ?_⟩
        have hsub : addr + (u - ph.pVaddr) - addr = u - ph.pVaddr := by
          rw [BitVec.add_comm, BitVec.add_sub_cancel]
        rw [hmem, hsub, if_pos hu.2, BitVec.add_comm, BitVec.sub_add_cancel]
        exact Option.some.inj hb
      · obtain ⟨k, hk, hkv, hkb⟩ := h.bytes hb
        refine ⟨k, hv.keeps hg hk, hkv, ?_⟩
        rw [hmem, if_neg, hkb]
        intro hin
        exact hu (hv.injective hgv (hv.keeps hg hk) (hback hin) ▸ hholds hin)
    · rw [hvm] at hk
      rw [hmem, if_neg]
      · refine h.other fun u hu hku => hk u ?_ (hv.keeps hg hku)
        rw [image_append]
        split_ifs
        · exact Option.some_ne_none _
        · exact hu
      · intro hin
        refine hk _ ?_ (hback hin)
        rw [image_append, if_pos (hholds hin)]
        exact Option.some_ne_none _
    · rw [breakOf_append, if_pos ht, ← h.brk, htd, Nemu.loadSegment, if_pos ht]
      by_cases hlt : s.curBrk < ph.pVaddr + ph.pMemsz - 1
      · rw [max_eq_right (BitVec.le_of_lt hlt : s.curBrk ≤ _)]
        simp only [if_pos hlt]
      · rw [max_eq_left (BitVec.not_lt.mp hlt)]
        simp only [if_neg hlt]
  · have hskip : Nemu.loadSegment v disk s ph = s := by rw [Nemu.loadSegment, if_neg ht]
    have himg : image disk (hs ++ [ph]) = image disk hs := by
      funext u
      rw [image_append, if_neg fun hu => ht hu.1]
    rw [hskip]
    refine ⟨fun hb => h.bytes (himg ▸ hb), fun hk => h.other (himg ▸ hk), ?_⟩
    rw [breakOf_append, if_neg ht, h.brk]

/-- The loop loads the headers it visits, in order. -/
theorem Loaded.loadSegments (hv : v.Lawful Good) (buf : Word → Byte) {s0 : KState μ} :
    ∀ n i ph {hs s phs s'}, Good s.vm → Loaded v disk hs s0 s →
      loadSegments v disk buf n i ph s = (phs, s') →
      (∀ p ∈ phs, (phdrAt buf p).pType = 1 →
        (phdrAt buf p).pFilesz.toNat ≤ (phdrAt buf p).pMemsz.toNat ∧
          v.Accessible Good (phdrAt buf p).pVaddr (phdrAt buf p).pMemsz) →
      Good s'.vm ∧ Loaded v disk (hs ++ phs.map (phdrAt buf)) s0 s'
  | 0, _, _, hs, s, phs, s', hg, h, hrun, _ => by
    obtain ⟨rfl, rfl⟩ := Prod.mk.inj hrun
    rw [List.map_nil, List.append_nil]
    exact ⟨hg, h⟩
  | n + 1, i, ph, hs, s, phs, s', hg, h, hrun, hsz => by
    set p := ph + 32 * BitVec.ofNat 32 i
    obtain ⟨rfl, rfl⟩ := Prod.mk.inj hrun
    have hp := hsz p (List.mem_cons_self ..)
    have hone := h.loadSegment hv hg (fun ht => (hp ht).1) fun ht => (hp ht).2
    have hrest := Loaded.loadSegments hv buf n (i + 1) p (loadSegment_good hv hg _) hone rfl
      fun q hq => hsz q (List.mem_cons_of_mem _ hq)
    rwa [List.append_assoc] at hrest

/-- **What is loaded above 4 MB is there when the user program starts.** -/
theorem Loaded.start (hv : v.Lawful Good) {hs : List Phdr} {s0 s t : KState μ} (hg : Good s.vm)
    (h : Loaded v disk hs s0 s) (hin : ∀ u, image disk hs u ≠ none → 2 ^ 22 ≤ u.toNat)
    {va len : Word} (hmem : t.mem = s.mem) (hbrk : t.curBrk = s.curBrk)
    (hvm : t.vm = v.createVideoMapping (v.malloc va len s.vm).2) : Loaded v disk hs s0 t := by
  have hstay : ∀ {u k}, image disk hs u ≠ none → v.kaddr s.vm u = some k →
      v.kaddr t.vm u = some k := fun {u k} hu hk => by
    rw [hvm, kaddr_createVideoMapping hv (hv.good hg) (hin u hu)]
    exact hv.keeps hg hk
  refine ⟨fun {u b} hb => ?_, fun {k} hk => ?_, ?_⟩
  · obtain ⟨k, hk, hkv, hkb⟩ := h.bytes hb
    exact ⟨k, hstay (by rw [hb]; exact Option.some_ne_none _) hk, hkv, hmem ▸ hkb⟩
  · rw [hmem]
    exact h.other fun u hu hku => hk u hu (hstay hu hku)
  · rw [hbrk]
    exact h.brk

variable (v disk)

/-- The places of the program headers. -/
def phTable : List Word :=
  (List.range (ePhnum disk)).map fun i => ePhoff disk + 32 * BitVec.ofNat 32 i

/-- An ELF32 image whose headers are in its first 4096 bytes. -/
structure ImageOk : Prop where
  magic : field disk 0 4 = 0x464c457f
  table : (ePhoff disk).toNat + 32 * ePhnum disk ≤ 4096
  sizes : ∀ p ∈ phTable disk, (phdrAt disk p).pType = 1 →
    (phdrAt disk p).pFilesz.toNat ≤ (phdrAt disk p).pMemsz.toNat

/-- The loader visits each header once and returns the entry point, and when
the user program starts the segments of the image are loaded. -/
def LoadsImage (s0 : KState μ) : Prop :=
  ∃ phs s1 s2, loadSegments v disk (elfBuf disk junk) (ePhnum (elfBuf disk junk)) 0
        (ePhoff (elfBuf disk junk)) s0 = (phs, s1) ∧
    phs.Perm (phTable disk) ∧ loader v disk junk s0 = some (eEntry disk, s2) ∧
    Loaded v disk ((phTable disk).map (phdrAt disk)) s0 s2

/-! ### The buffer -/

theorem elfBuf_apply {o : Word} (h : o.toNat < 4096) : elfBuf disk junk o = disk o := by
  have h0 : o - 0 = o := BitVec.sub_zero o
  unfold elfBuf ideRead
  rw [storeLoop_apply _ _ _ _ _ (by decide), h0, if_pos (by exact h), BitVec.ofNat_toNat,
    BitVec.setWidth_eq]
  exact congrArg disk (BitVec.zero_add o)

theorem field_elfBuf {o : Word} {n : ℕ} (h : o.toNat + n ≤ 4096) :
    field (elfBuf disk junk) o n = field disk o n :=
  word_congr fun i hi => elfBuf_apply disk junk (by rw [toNat_add_ofNat (by omega)]; omega)

theorem phdrAt_elfBuf {p : Word} (h : p.toNat + 32 ≤ 4096) :
    phdrAt (elfBuf disk junk) p = phdrAt disk p := by
  have hfield : ∀ c : Word, c.toNat ≤ 28 →
      field (elfBuf disk junk) (p + c) 4 = field disk (p + c) 4 := fun c hc =>
    field_elfBuf disk junk (by rw [BitVec.toNat_add_of_lt (by omega)]; omega)
  unfold phdrAt
  rw [field_elfBuf disk junk (by omega), hfield 4 (by decide), hfield 8 (by decide),
    hfield 16 (by decide), hfield 20 (by decide)]

/-! ### Which headers the walk visits -/

/-- The steps `i`, …, `i + n` of the cursor, added up. -/
def stepSum (i : ℕ) : ℕ → ℕ
  | 0 => i
  | n + 1 => i + stepSum (i + 1) n

theorem le_stepSum : ∀ n i, i + n ≤ stepSum i n
  | 0, _ => le_rfl
  | n + 1, i => by
    have := le_stepSum n (i + 1)
    rw [stepSum]
    omega

theorem stepSum_le : ∀ n i, stepSum i n ≤ (n + 1) * (i + n)
  | 0, i => by simp [stepSum]
  | n + 1, i => by
    have := stepSum_le n (i + 1)
    have hsplit : (n + 1 + 1) * (i + (n + 1)) = (n + 1) * (i + 1 + n) + (i + (n + 1)) := by ring
    rw [stepSum, hsplit]
    omega

/-- The last header visited. -/
theorem mem_loadSegments (buf : Word → Byte) (base : Word) : ∀ n i t (s : KState μ),
    base + 32 * BitVec.ofNat 32 (t + stepSum i n) ∈
      (loadSegments v disk buf (n + 1) i (base + 32 * BitVec.ofNat 32 t) s).1
  | 0, i, t, s => by
    rw [stepSum, BitVec.ofNat_add, BitVec.mul_add, ← BitVec.add_assoc]
    exact List.mem_cons_self ..
  | n + 1, i, t, s => by
    have ih := mem_loadSegments buf base n (i + 1) (t + i)
      (loadSegment v disk s (phdrAt buf (base + 32 * BitVec.ofNat 32 t + 32 * BitVec.ofNat 32 i)))
    rw [show base + 32 * BitVec.ofNat 32 (t + i) =
      base + 32 * BitVec.ofNat 32 t + 32 * BitVec.ofNat 32 i by
        rw [BitVec.ofNat_add, BitVec.mul_add, ← BitVec.add_assoc], Nat.add_assoc] at ih
    exact List.mem_cons_of_mem _ ih

variable {disk}

theorem ImageOk.fields (h : ImageOk disk) : ePhnum (elfBuf disk junk) = ePhnum disk ∧
    ePhoff (elfBuf disk junk) = ePhoff disk ∧ eEntry (elfBuf disk junk) = eEntry disk ∧
    field (elfBuf disk junk) 0 4 = 0x464c457f := by
  unfold ePhnum ePhoff eEntry
  rw [field_elfBuf disk junk (by decide), field_elfBuf disk junk (by decide),
    field_elfBuf disk junk (by decide), field_elfBuf disk junk (by decide)]
  exact ⟨rfl, rfl, rfl, h.magic⟩

/-- The place of header `i`, when its end is in the buffer. -/
theorem toNat_header {base : Word} {t : ℕ} (h : base.toNat + 32 * t < 2 ^ 32) :
    (base + 32 * BitVec.ofNat 32 t).toNat = base.toNat + 32 * t := by
  have h32 : (32 : Word).toNat = 32 := rfl
  rw [BitVec.toNat_add, BitVec.toNat_mul, BitVec.toNat_ofNat, h32]
  omega

theorem ImageOk.phdrAt_eq (h : ImageOk disk) {p : Word} (hp : p ∈ phTable disk) :
    phdrAt (elfBuf disk junk) p = phdrAt disk p := by
  obtain ⟨i, hi, rfl⟩ := List.mem_map.mp hp
  have hin := List.mem_range.mp hi
  have htab := h.table
  exact phdrAt_elfBuf disk junk (by rw [toNat_header (by omega)]; omega)

variable {v}

/-- With at most two headers the walk is the table. -/
theorem loadSegments_of_le_two (h : ImageOk disk) (hn : ePhnum disk ≤ 2) (s : KState μ) :
    (loadSegments v disk (elfBuf disk junk) (ePhnum (elfBuf disk junk)) 0
      (ePhoff (elfBuf disk junk)) s).1 = phTable disk := by
  obtain ⟨h1, h2, -, -⟩ := h.fields junk
  rw [h1, h2, phTable]
  generalize ePhnum disk = n at hn
  have hz : ePhoff disk + 32 * BitVec.ofNat 32 0 = ePhoff disk := by simp
  match n, hn with
  | 0, _ => rfl
  | 1, _ => rfl
  | 2, _ =>
    simp only [loadSegments, hz, List.range_succ, List.range_zero, List.nil_append, List.map_cons,
      List.map_nil, List.cons_append]

/-- With more it leaves the table. -/
theorem not_perm_of_two_lt (h : ImageOk disk) (hn : 2 < ePhnum disk) (s : KState μ) :
    ¬ (loadSegments v disk (elfBuf disk junk) (ePhnum (elfBuf disk junk)) 0
      (ePhoff (elfBuf disk junk)) s).1.Perm (phTable disk) := by
  obtain ⟨h1, h2, -, -⟩ := h.fields junk
  obtain ⟨n, hn'⟩ : ∃ n, ePhnum disk = n + 1 := ⟨ePhnum disk - 1, by omega⟩
  rw [h1, h2, hn']
  intro hperm
  have hmem := mem_loadSegments v disk (elfBuf disk junk) (ePhoff disk) n 0 0 s
  have hz : ePhoff disk + 32 * BitVec.ofNat 32 0 = ePhoff disk := by simp
  rw [hz, Nat.zero_add] at hmem
  obtain ⟨i, hi, he⟩ := List.mem_map.mp (hperm.mem_iff.mp hmem)
  have hin := List.mem_range.mp hi
  have htab := h.table
  -- the last step of the cursor alone passes the last header
  have hlow : n + 1 ≤ stepSum 0 n := by
    obtain ⟨k, rfl⟩ : ∃ k, n = k + 2 := ⟨n - 2, by omega⟩
    have hlast := le_stepSum k 2
    have hstep : stepSum 0 (k + 2) = 0 + (1 + stepSum 2 k) := rfl
    omega
  have hup : stepSum 0 n ≤ 128 * 128 := (stepSum_le n 0).trans (Nat.mul_le_mul (by omega) (by omega))
  have hto := congrArg BitVec.toNat he
  rw [toNat_header (by omega), toNat_header (by omega)] at hto
  omega

/-- The steps of the loader after the walk. -/
theorem loader_eq (h : ImageOk disk) (s0 : KState μ) {phs : List Word} {s1 : KState μ}
    (hrun : loadSegments v disk (elfBuf disk junk) (ePhnum (elfBuf disk junk)) 0
      (ePhoff (elfBuf disk junk)) s0 = (phs, s1)) :
    loader v disk junk s0 = some (eEntry disk, { s1 with
      vm := v.createVideoMapping (v.malloc (0xC0000000 - 0x100000) 0x100000 s1.vm).2
      cr3 := v.ucr3 }) := by
  obtain ⟨-, -, h3, h4⟩ := h.fields junk
  rw [loader, if_pos h4, hrun, h3]

/-- What is loaded when the user program starts is in user memory. -/
theorem Loaded.inUser {hs : List Phdr} {s0 s : KState μ} {vm : UserSpace μ}
    (h : Loaded v disk hs s0 s) (hvm : s.vm = v.createVideoMapping vm) {ph : Phdr} (hp : ph ∈ hs) :
    ph.InUser := by
  intro u hu
  obtain ⟨b, hb⟩ := Option.ne_none_iff_exists'.mp ((image_ne_none_iff disk hs u).mpr ⟨ph, hp, hu⟩)
  obtain ⟨k, hk, hkv, -⟩ := h.bytes hb
  refine ⟨?_, (kaddr_eq_some hk).1⟩
  by_contra hlow
  rw [hvm] at hk
  exact hkv (kaddr_createVideoMapping_low (by omega) hk)

end Loader

/-! ### Two images -/

/-- Pages from 16 MB on for the user addresses from `base` to the end of its
directory entry. -/
def sampleVm (base : Word) : Vm Unit where
  mmMalloc va _ updir heap := (va - base + 0x01000000, updir, heap)
  uptable _ _ i := if base.toNat / 4096 % 1024 ≤ i then
    makePte (BitVec.ofNat 32 (0x01000000 + 4096 * (i - base.toNat / 4096 % 1024))) else 0
  tablePa := 0x00122000
  ucr3 := 0x00121000

/-- The directory has the page table of `sampleVm`. -/
def SampleDir (base : Word) (s : UserSpace Unit) : Prop :=
  ∀ i, s.updir i = if i = base.toNat / 2 ^ 22 then makePde 0x00200000 else 0

/-- The addresses that `sampleVm` serves. -/
def InWindow (base u : Word) : Prop :=
  base.toNat ≤ u.toNat ∧ u.toNat / 2 ^ 22 = base.toNat / 2 ^ 22

theorem InWindow.toNat_place {base u : Word} (h : InWindow base u) :
    (u - base + 0x01000000).toNat = u.toNat - base.toNat + 0x01000000 := by
  have hlow := h.1
  have hdir := h.2
  have hsub : (u - base).toNat = u.toNat - base.toNat := BitVec.toNat_sub_of_le hlow
  have h16 : (0x01000000 : Word).toNat = 0x01000000 := rfl
  rw [BitVec.toNat_add_of_lt (by rw [hsub, h16]; omega), hsub, h16]

theorem sampleVm_pte {base : Word} (s : UserSpace Unit) (i : ℕ) :
    (sampleVm base).pte s (makePde 0x00200000) i = if base.toNat / 4096 % 1024 ≤ i then
      makePte (BitVec.ofNat 32 (0x01000000 + 4096 * (i - base.toNat / 4096 % 1024))) else 0 :=
  if_neg (show ¬ pageFrame (makePde 0x00200000) = pageFrame 0x00122000 by decide)

theorem kaddr_sampleVm {base : Word} {s : UserSpace Unit} (hs : SampleDir base s) {u : Word}
    (hb : base.toNat % 4096 = 0) (hu : ¬ InKernel u) (hw : InWindow base u) :
    (sampleVm base).kaddr s u = some (u - base + 0x01000000) := by
  have hlow := hw.1
  have hdir := hw.2
  have hpage : base.toNat / 4096 % 1024 ≤ u.toNat / 4096 % 1024 := by omega
  have hn : (makePte (BitVec.ofNat 32 (0x01000000 + 4096 * (u.toNat / 4096 % 1024 -
      base.toNat / 4096 % 1024)))).toNat =
        0x01000000 + 4096 * (u.toNat / 4096 % 1024 - base.toNat / 4096 % 1024) + 7 := by
    rw [makePte, ← makePde, toNat_makePde, BitVec.toNat_ofNat, Nat.mod_eq_of_lt (by omega)]
    omega
  have hpde := (hs (u.toNat / 2 ^ 22)).trans (if_pos hw.2)
  simp only [Vm.kaddr, hpde, sampleVm_pte, if_pos hpage]
  rw [if_pos ⟨hu, by decide, (present_iff _).mpr (by rw [hn]; omega)⟩]
  refine congrArg some (BitVec.eq_of_toNat_eq ?_)
  rw [toNat_physical, hn, hw.toNat_place]
  omega

theorem inWindow_of_kaddr {base : Word} {s : UserSpace Unit} (hs : SampleDir base s) {u k : Word}
    (hb : base.toNat % 4096 = 0) (h : (sampleVm base).kaddr s u = some k) :
    ¬ InKernel u ∧ InWindow base u := by
  obtain ⟨hu, hpde, hpte, -⟩ := kaddr_eq_some h
  rw [hs] at hpde hpte
  split_ifs at hpde hpte with hdir
  · rw [sampleVm_pte] at hpte
    split_ifs at hpte with hpage
    · exact ⟨hu, by omega, hdir⟩
    · exact absurd hpte (by decide)
  · exact absurd hpde (by decide)

theorem sampleVm_lawful {base : Word} (hb : base.toNat % 4096 = 0) :
    (sampleVm base).Lawful (SampleDir base) where
  good hs := hs
  keeps _ h := h
  injective hs h h' := by
    obtain ⟨hu, hw⟩ := inWindow_of_kaddr hs hb h
    obtain ⟨hu', hw'⟩ := inWindow_of_kaddr hs hb h'
    rw [kaddr_sampleVm hs hb hu hw] at h
    rw [kaddr_sampleVm hs hb hu' hw'] at h'
    have he := (Option.some.inj h).trans (Option.some.inj h').symm
    simpa using he
  ownTables {s i} hs hp := by
    rw [hs i] at hp ⊢
    split_ifs at hp ⊢
    · exact show pageFrame (makePde 0x00200000) ≠ pageFrame 0x00122000 by decide
    · exact absurd hp (by decide)
  ownPages {s u k} hs h := by
    obtain ⟨hu, hw⟩ := inWindow_of_kaddr hs hb h
    rw [kaddr_sampleVm hs hb hu hw] at h
    have hn := congrArg BitVec.toNat (Option.some.inj h)
    rw [hw.toNat_place] at hn
    simp only [Video, vmemAddr]
    omega

theorem sampleVm_accessible {base va len : Word} (hb : base.toNat % 4096 = 0)
    (h : ∀ i < len.toNat, ¬ InKernel (va + BitVec.ofNat 32 i) ∧
      InWindow base (va + BitVec.ofNat 32 i)) :
    (sampleVm base).Accessible (SampleDir base) va len := fun s hs i hi => by
  refine (kaddr_sampleVm hs hb (h i hi).1 (h i hi).2).trans (congrArg some ?_)
  change _ = va - base + 0x01000000 + BitVec.ofNat 32 i
  simp only [BitVec.sub_eq_add_neg]
  ac_rfl

def bytesOf (w : Word) : List Byte := (List.range 4).map (byte w)

/-- An image at `base` with `n` segments of 16 bytes in the file and 32 in
memory. -/
def sampleImage (base : Word) (n : ℕ) : List Byte :=
  bytesOf 0x464c457f ++ List.replicate 20 0 ++ bytesOf base ++ bytesOf 52 ++
    List.replicate 12 0 ++ bytesOf (BitVec.ofNat 32 n) ++ List.replicate 4 0 ++
    (List.range n).flatMap fun i =>
      bytesOf 1 ++ bytesOf (0x200 + 16 * BitVec.ofNat 32 i) ++
        bytesOf (base + 0x1000 * BitVec.ofNat 32 i) ++ List.replicate 4 0 ++
        bytesOf 16 ++ bytesOf 32 ++ List.replicate 8 0

def sampleDisk (base : Word) (n : ℕ) : Word → Byte :=
  fun o => (sampleImage base n).getD o.toNat 0xff

def bootState (base : Word) : KState Unit where
  mem _ := 0
  vm := ⟨fun i => if i = base.toNat / 2 ^ 22 then makePde 0x00200000 else 0, fun _ => 0, ()⟩
  curBrk := 0
  maxBrk := 0
  cr3 := 0

/-- Each header at a place in `ps` describes a well-formed segment. -/
def sizesOk (disk : Word → Byte) (ps : List Word) : Bool :=
  ps.all fun p => decide ((phdrAt disk p).pFilesz.toNat ≤ (phdrAt disk p).pMemsz.toNat)

/-- Each of these segments is in the window. -/
def windowOk (base : Word) (disk : Word → Byte) (ps : List Word) : Bool :=
  ps.all fun p => decide (base.toNat ≤ (phdrAt disk p).pVaddr.toNat ∧
    (phdrAt disk p).pVaddr.toNat + (phdrAt disk p).pMemsz.toNat ≤ (base.toNat / 2 ^ 22 + 1) * 2 ^ 22)

theorem sampleDisk_ok {base : Word} {n : ℕ} (h : field (sampleDisk base n) 0 4 = 0x464c457f)
    (ht : (ePhoff (sampleDisk base n)).toNat + 32 * ePhnum (sampleDisk base n) ≤ 4096)
    (hs : sizesOk (sampleDisk base n) (phTable (sampleDisk base n)) = true) :
    ImageOk (sampleDisk base n) where
  magic := h
  table := ht
  sizes p hp _ := of_decide_eq_true (List.all_eq_true.mp hs p hp)

theorem inWindow_of_windowOk {base : Word} {disk : Word → Byte} {ps : List Word}
    (h : windowOk base disk ps = true) {p : Word} (hp : p ∈ ps) {i : ℕ}
    (hi : i < (phdrAt disk p).pMemsz.toNat) :
    InWindow base ((phdrAt disk p).pVaddr + BitVec.ofNat 32 i) := by
  obtain ⟨hlow, hhigh⟩ := of_decide_eq_true (List.all_eq_true.mp h p hp)
  have hb := base.isLt
  rw [InWindow, toNat_add_ofNat (by omega)]
  omega

end Nemu
