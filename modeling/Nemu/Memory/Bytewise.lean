/-
# Accesses byte by byte

`hwaddr_read` and `hwaddr_write` choose between RAM and a window of `mmio.c` by the
first byte of the access, and `hwaddr_write` drops a write to address 0. So an access
is that of its bytes one by one if and only if each of them is kept where the access
takes it, and a write of more than one byte does not begin at 0.

This is about accesses that replace no dirty line of L2 (`CleanReads`,
`CleanWrites`).

Key definitions: `Place`, `place`, `Contents`, `HasContents`, `placeRun`, `ReadSplits`,
`WriteSplits`.
Key theorems: `hwaddrRead_holds`, `hwaddrWrite_holds`, `runMem_places`, `bytewise_iff`.
-/
import Nemu.Device.Vga
import Nemu.Memory.FlatMemory

namespace Nemu

open Bytes

/-! ### Where a byte is kept -/

/-- A byte of RAM, or of the pool behind the windows. -/
inductive Place where
  | ram (n : ℕ)
  | io (n : ℕ)
  deriving DecidableEq

/-- The byte so many places further. -/
def Place.add : Place → ℕ → Place
  | ram n, i => ram (n + i)
  | io n, i => io (n + i)

/-- The bytes at all places. -/
abbrev Contents : Type := Place → Byte

namespace Contents

def load (f : Contents) (q : Place) (len : ℕ) : Word := word (fun i => f (q.add i)) len

def store (f : Contents) (q : Place) (len : ℕ) (v : Word) : Contents := fun r =>
  match q, r with
  | .ram a, .ram n => Bytes.store (fun n => f (.ram n)) a len v n
  | .io a, .io n => Bytes.store (fun n => f (.io n)) a len v n
  | _, r => f r

variable (f : Contents) (q : Place) (len : ℕ) (v : Word)

theorem store_ram (a n : ℕ) :
    f.store (.ram a) len v (.ram n) = Bytes.store (fun n => f (.ram n)) a len v n := rfl

theorem store_io (a n : ℕ) :
    f.store (.io a) len v (.io n) = Bytes.store (fun n => f (.io n)) a len v n := rfl

theorem store_add {i : ℕ} (hi : i < len) : f.store q len v (q.add i) = byte v i := by
  cases q with
  | ram a => rw [Place.add, store_ram, store_of_mem (by omega), Nat.add_sub_cancel_left]
  | io a => rw [Place.add, store_io, store_of_mem (by omega), Nat.add_sub_cancel_left]

theorem store_other {r : Place} (h : ∀ i < len, r ≠ q.add i) : f.store q len v r = f r := by
  have hout : ∀ {a n : ℕ}, (∀ i < len, n ≠ a + i) → ¬ (a ≤ n ∧ n < a + len) := by
    intro a n hne hin
    exact hne (n - a) (by omega) (by omega)
  cases q with
  | ram a =>
    cases r with
    | ram n => rw [store_ram, store_of_not_mem (hout fun i hi he => h i hi (congrArg Place.ram he))]
    | io n => rfl
  | io a =>
    cases r with
    | ram n => rfl
    | io n => rw [store_io, store_of_not_mem (hout fun i hi he => h i hi (congrArg Place.io he))]

end Contents

variable {δ : Type}

/-- Where the byte at an address is kept. -/
def place (m : Mmio δ) (a : Word) : Place :=
  match isMmio m a with
  | none => .ram a.toNat
  | some p => .io (p.space + (a - p.low).toNat)

/-- The windows lie over RAM, and their devices accept every access. -/
structure Mmio.Served (m : Mmio δ) : Prop where
  below : ∀ p ∈ m.maps, p.high.toNat < hwMemSize
  callback : ∀ p ∈ m.maps, ∀ addr len isWrite dev, (p.callback addr len isWrite dev).isSome = true

/-- The memory has these contents. -/
structure HasContents (f : Contents) (m : Memory δ) : Prop where
  ram : Coherent (fun n => f (.ram n)) m.cache
  io : m.mmio.pool = fun n => f (.io n)

theorem place_congr {m m' : Mmio δ} (h : m'.maps = m.maps) (a : Word) :
    isMmio m' a = isMmio m a ∧ place m' a = place m a := by
  unfold place isMmio
  rw [h]
  exact ⟨rfl, rfl⟩

theorem Mmio.Served.congr {m m' : Mmio δ} (h : m.Served) (hm : m'.maps = m.maps) : m'.Served :=
  ⟨hm ▸ h.below, hm ▸ h.callback⟩

/-- The window of an address is one of the maps. -/
theorem mem_of_isMmio {m : Mmio δ} {a : Word} {p : MmioMap δ} (h : isMmio m a = some p) : p ∈ m.maps :=
  List.mem_of_find?_eq_some h

section Access

variable {junk : ℕ → Byte} {oob : ℕ → ℕ → Byte} {m : Memory δ} {f : Contents} {a : Word} {len : ℕ}

/-- **A read** returns the bytes from the place of the first one on. -/
theorem hwaddrRead_holds (h : HasContents f m) (hm : m.mmio.Served) (hlen : len = 1 ∨ len = 2 ∨ len = 4)
    (ha : a.toNat + len ≤ hwMemSize) (hc : isMmio m.mmio a = none → ReadClean m.cache a len) :
    ∃ m', hwaddrRead junk oob m a len = some (f.load (place m.mmio a) len, m') ∧ HasContents f m' ∧
      m'.mmio.maps = m.mmio.maps := by
  unfold hwaddrRead place
  cases hp : isMmio m.mmio a with
  | none =>
    obtain ⟨v, s, hread, hcoh, hv⟩ := h.ram.cache1Read junk oob (by omega) (by omega) ha (hc hp)
    refine ⟨{ m with cache := s }, ?_, ⟨hcoh, h.io⟩, rfl⟩
    simp only [hread, Option.bind_eq_bind, Option.bind_some, hv]
    rfl
  | some p =>
    obtain ⟨dev, hdev⟩ := Option.isSome_iff_exists.mp (hm.callback p (mem_of_isMmio hp) a len false m.mmio.dev)
    refine ⟨{ m with mmio := { m.mmio with dev := dev } }, ?_, ⟨h.ram, h.io⟩, rfl⟩
    have hdata : word (fun i => m.mmio.pool (p.space + (a - p.low).toNat + i)) 4 &&& low len &&& low len =
        f.load (.io (p.space + (a - p.low).toNat)) len := by
      rw [h.io, and_low_eq_word _ (by omega), and_low_eq_word _ (by omega)]
      refine word_congr fun i hi => ?_
      rw [byte_word _ _ _ (by omega), if_pos hi, byte_word _ _ _ (by omega), if_pos (by omega)]
      rfl
    simp only [mmioRead, if_pos hlen, hdev, Option.bind_eq_bind, Option.bind_some]
    rw [← hdata]
    rfl

/-- **A write** stores the bytes from the place of the first one on. -/
theorem hwaddrWrite_holds (h : HasContents f m) (hm : m.mmio.Served) (hlen : len = 1 ∨ len = 2 ∨ len = 4)
    (ha : a.toNat + len ≤ hwMemSize) (h0 : a ≠ 0) (data : Word)
    (hc : isMmio m.mmio a = none → WriteClean m.cache a len) :
    ∃ m', hwaddrWrite junk oob m a len data = some m' ∧
      HasContents (f.store (place m.mmio a) len data) m' ∧ m'.mmio.maps = m.mmio.maps := by
  unfold hwaddrWrite place
  rw [if_neg h0]
  cases hp : isMmio m.mmio a with
  | none =>
    obtain ⟨s, hwrite, hcoh⟩ := h.ram.cache1Write junk oob (by omega) (by omega) ha (hc hp) data
    refine ⟨{ m with cache := s }, ?_, ⟨hcoh, h.io⟩, rfl⟩
    simp only [hwrite, Option.bind_eq_bind, Option.bind_some]
    rfl
  | some p =>
    obtain ⟨dev, hdev⟩ := Option.isSome_iff_exists.mp (hm.callback p (mem_of_isMmio hp) a len true m.mmio.dev)
    refine ⟨{ m with mmio := { m.mmio with
      pool := Bytes.store m.mmio.pool (p.space + (a - p.low).toNat) len data, dev := dev } }, ?_, ⟨h.ram, ?_⟩, rfl⟩
    · simp only [mmioWrite_eq _ _ _ _ hlen, hdev, Option.bind_eq_bind, Option.map_some, Option.bind_some]
      rfl
    · rw [h.io]
      rfl

end Access

/-! ### Runs -/

section Runs

variable (junk : ℕ → Byte) (oob : ℕ → ℕ → Byte)

/-- The access has one of the lengths, and its bytes are below the end of RAM. -/
def MemOp.InRange : MemOp → Prop
  | .read a len => (len = 1 ∨ len = 2 ∨ len = 4) ∧ a.toNat + len ≤ hwMemSize
  | .write a len _ => (len = 1 ∨ len = 2 ∨ len = 4) ∧ a.toNat + len ≤ hwMemSize

/-- No access of the run replaces a dirty line of L2. -/
def Clean (m : Memory δ) : List MemOp → Prop
  | [] => True
  | .read a len :: ops => (isMmio m.mmio a = none → ReadClean m.cache a len) ∧
      ∀ v m', hwaddrRead junk oob m a len = some (v, m') → Clean m' ops
  | .write a len data :: ops => (a ≠ 0 → isMmio m.mmio a = none → WriteClean m.cache a len) ∧
      ∀ m', hwaddrWrite junk oob m a len data = some m' → Clean m' ops

/-- The address of the first byte. -/
def MemOp.addr : MemOp → Word
  | .read a _ => a
  | .write a _ _ => a

/-- What the reads of a run return, and the contents after it. -/
def placeRun (mm : Mmio δ) (f : Contents) : List MemOp → List Word × Contents
  | [] => ([], f)
  | .read a len :: ops => (f.load (place mm a) len :: (placeRun mm f ops).1, (placeRun mm f ops).2)
  | .write a len data :: ops => placeRun mm (if a = 0 then f else f.store (place mm a) len data) ops

variable {junk oob} {m : Memory δ} {mm : Mmio δ} {f : Contents} {a data : Word} {len : ℕ}

theorem placeRun_append (f : Contents) : ∀ ops ops' : List MemOp, placeRun mm f (ops ++ ops') =
    ((placeRun mm f ops).1 ++ (placeRun mm (placeRun mm f ops).2 ops').1,
      (placeRun mm (placeRun mm f ops).2 ops').2)
  | [], ops' => rfl
  | .read a len :: ops, ops' => by
    rw [List.cons_append, placeRun, placeRun_append f ops ops']
    rfl
  | .write a len data :: ops, ops' => by
    rw [List.cons_append, placeRun, placeRun_append _ ops ops']
    rfl

/-- **A run** is one on the contents. -/
theorem runMem_places : ∀ (ops : List MemOp) {m : Memory δ} {f : Contents}, HasContents f m →
    mm.Served → m.mmio.maps = mm.maps → (∀ op ∈ ops, op.InRange) → Clean junk oob m ops →
    ∃ m', runMem junk oob m ops = some ((placeRun mm f ops).1, m') ∧ HasContents (placeRun mm f ops).2 m'
  | [], m, f, h, _, _, _, _ => ⟨m, rfl, h⟩
  | .read a len :: ops, m, f, h, hs, hmaps, hr, hc => by
    obtain ⟨hlen, ha⟩ : MemOp.InRange (.read a len) := hr _ (List.mem_cons_self ..)
    obtain ⟨m₁, hread, h₁, hmaps₁⟩ := hwaddrRead_holds h (hs.congr hmaps) hlen ha hc.1
    obtain ⟨m', hrun, h'⟩ := runMem_places ops h₁ hs (hmaps₁.trans hmaps)
      (fun op hop => hr op (List.mem_cons_of_mem _ hop)) (hc.2 _ _ hread)
    refine ⟨m', ?_, h'⟩
    simp only [runMem, hread, Option.bind_eq_bind, Option.bind_some, hrun, placeRun]
    rw [(place_congr hmaps a).2]
    rfl
  | .write a len data :: ops, m, f, h, hs, hmaps, hr, hc => by
    obtain ⟨hlen, ha⟩ : MemOp.InRange (.write a len data) := hr _ (List.mem_cons_self ..)
    have hstep : ∃ m₁, hwaddrWrite junk oob m a len data = some m₁ ∧
        HasContents (if a = 0 then f else f.store (place mm a) len data) m₁ ∧ m₁.mmio.maps = m.mmio.maps := by
      by_cases h0 : a = 0
      · refine ⟨m, if_pos h0, ?_, rfl⟩
        rwa [if_pos h0]
      · obtain ⟨m₁, hwrite, h₁, hmaps₁⟩ := hwaddrWrite_holds h (hs.congr hmaps) hlen ha h0 data (hc.1 h0)
        refine ⟨m₁, hwrite, ?_, hmaps₁⟩
        rwa [if_neg h0, ← (place_congr hmaps a).2]
    obtain ⟨m₁, hwrite, h₁, hmaps₁⟩ := hstep
    obtain ⟨m', hrun, h'⟩ := runMem_places ops h₁ hs (hmaps₁.trans hmaps)
      (fun op hop => hr op (List.mem_cons_of_mem _ hop)) (hc.2 _ hwrite)
    refine ⟨m', ?_, h'⟩
    simp only [runMem, hwrite, Option.bind_eq_bind, Option.bind_some, hrun, placeRun]

variable (junk oob) in
/-- A run inside windows does not come to the caches. -/
theorem clean_of_windows : ∀ (ops : List MemOp) {m : Memory δ}, m.mmio.maps = mm.maps →
    (∀ op ∈ ops, (isMmio mm op.addr).isSome = true) → Clean junk oob m ops
  | [], _, _, _ => trivial
  | op :: ops, m, hmaps, hin => by
    have hop : isMmio m.mmio op.addr ≠ none := by
      rw [(place_congr hmaps _).1]
      exact Option.isSome_iff_ne_none.mp (hin op List.mem_cons_self)
    have hrest := fun op h => hin op (List.mem_cons_of_mem _ h)
    cases op with
    | read a len => exact ⟨fun h => absurd h hop, fun v m' hr =>
        clean_of_windows ops ((maps_hwaddrRead junk oob hr).trans hmaps) hrest⟩
    | write a len data => exact ⟨fun _ h => absurd h hop, fun m' hw =>
        clean_of_windows ops ((maps_hwaddrWrite junk oob hw).trans hmaps) hrest⟩

/-! ### The bytes of an access -/

/-- The one-byte writes of the bytes of `data`. -/
def byteWrites (a data : Word) (len : ℕ) : List MemOp :=
  (List.range len).map fun i => .write (a + BitVec.ofNat 32 i) 1 ((byte data i).setWidth 32)

/-- The one-byte reads. -/
def byteReads (a : Word) (len : ℕ) : List MemOp :=
  (List.range len).map fun i => .read (a + BitVec.ofNat 32 i) 1

/-- One-byte reads of any addresses. -/
def readsOf (bs : List Word) : List MemOp := bs.map fun b => .read b 1

/-- The word whose bytes these are. -/
def combine (vs : List Word) : Word := word (fun i => byte (vs.getD i 0) 0) vs.length

variable (junk oob) in
/-- The read is the combination of the one-byte reads. -/
def ReadSplits (m : Memory δ) (a : Word) (len : ℕ) : Prop :=
  ∃ v vs m₁ m₂, runMem junk oob m [.read a len] = some ([v], m₁) ∧
    runMem junk oob m (byteReads a len) = some (vs, m₂) ∧ v = combine vs

variable (junk oob) in
/-- The write is as the one-byte writes to the later one-byte reads of `bs`. -/
def WriteSplits (m : Memory δ) (a : Word) (len : ℕ) (data : Word) (bs : List Word) : Prop :=
  ∃ vs m₁ m₂, runMem junk oob m (.write a len data :: readsOf bs) = some (vs, m₁) ∧
    runMem junk oob m (byteWrites a data len ++ readsOf bs) = some (vs, m₂)

variable (junk oob) in
/-- Neither the read nor the one-byte reads replace a dirty line of L2. -/
def CleanReads (m : Memory δ) (a : Word) (len : ℕ) : Prop :=
  Clean junk oob m [.read a len] ∧ Clean junk oob m (byteReads a len)

variable (junk oob) in
/-- Neither the write nor the one-byte writes do, nor the later reads. -/
def CleanWrites (m : Memory δ) (a : Word) (len : ℕ) (data : Word) (bs : List Word) : Prop :=
  Clean junk oob m (.write a len data :: readsOf bs) ∧
    Clean junk oob m (byteWrites a data len ++ readsOf bs)

/-- All bytes are where the access takes them. -/
def Together (mm : Mmio δ) (a : Word) (len : ℕ) : Prop :=
  ∀ i < len, place mm (a + BitVec.ofNat 32 i) = (place mm a).add i

theorem load_one (f : Contents) (q : Place) : f.load q 1 = (f q).setWidth 32 := by
  have hq : q.add 0 = q := by cases q <;> rfl
  simp [Contents.load, word, hq]

theorem placeRun_readsOf (f : Contents) : ∀ bs : List Word,
    placeRun mm f (readsOf bs) = (bs.map fun b => (f (place mm b)).setWidth 32, f)
  | [] => rfl
  | b :: bs => by
    have ih := placeRun_readsOf f bs
    show placeRun mm f (.read b 1 :: readsOf bs) = _
    rw [placeRun, ih, load_one]
    rfl

theorem byteReads_eq (a : Word) (len : ℕ) :
    byteReads a len = readsOf ((List.range len).map fun i => a + BitVec.ofNat 32 i) := by
  unfold byteReads readsOf
  rw [List.map_map]
  rfl

/-- What the one-byte reads are combined to. -/
theorem combine_byteReads (f : Contents) (a : Word) :
    combine (placeRun mm f (byteReads a len)).1 = word (fun i => f (place mm (a + BitVec.ofNat 32 i))) len := by
  rw [byteReads_eq, placeRun_readsOf]
  unfold combine
  rw [List.length_map, List.length_map, List.length_range]
  refine word_congr fun i hi => ?_
  rw [List.map_map, List.getD_eq_getElem?_getD, List.getElem?_map, List.getElem?_range hi]
  simp [byte_setWidth]

theorem toNat_byteAddr (ha : a.toNat + len ≤ hwMemSize) {i : ℕ} (hi : i < len) :
    (a + BitVec.ofNat 32 i).toNat = a.toNat + i :=
  toNat_add_ofNat (by simp only [hwMemSize] at ha; omega)

theorem inRange_readsOf {bs : List Word} (hbs : ∀ b ∈ bs, b.toNat < hwMemSize) :
    ∀ op ∈ readsOf bs, op.InRange := by
  intro op hop
  obtain ⟨b, hb, rfl⟩ := List.mem_map.mp hop
  exact ⟨.inl rfl, hbs b hb⟩

theorem byteAddr_lt (ha : a.toNat + len ≤ hwMemSize) :
    ∀ b ∈ (List.range len).map fun i => a + BitVec.ofNat 32 i, b.toNat < hwMemSize := by
  intro b hb
  obtain ⟨i, hi, rfl⟩ := List.mem_map.mp hb
  have hi' := List.mem_range.mp hi
  rw [toNat_byteAddr ha hi']
  omega

theorem inRange_byteReads (ha : a.toNat + len ≤ hwMemSize) : ∀ op ∈ byteReads a len, op.InRange := by
  rw [byteReads_eq]
  exact inRange_readsOf (byteAddr_lt ha)

theorem inRange_byteWrites (ha : a.toNat + len ≤ hwMemSize) (data : Word) :
    ∀ op ∈ byteWrites a data len, op.InRange := by
  intro op hop
  obtain ⟨i, hi, rfl⟩ := List.mem_map.mp hop
  have hi' := List.mem_range.mp hi
  refine ⟨.inl rfl, ?_⟩
  rw [toNat_byteAddr ha hi']
  omega

theorem place_add_inj {q : Place} {i j : ℕ} (h : q.add i = q.add j) : i = j := by
  cases q with
  | ram n => exact Nat.add_left_cancel (Place.ram.inj h)
  | io n => exact Nat.add_left_cancel (Place.io.inj h)

/-- What the one-byte writes leave, where the bytes are together: address 0 is left
out. -/
theorem placeRun_byteWrites (f : Contents) (data : Word) (ht : Together mm a len) : ∀ k ≤ len,
    ∃ g, placeRun mm f (byteWrites a data k) = ([], g) ∧
      (∀ i < k, a + BitVec.ofNat 32 i ≠ 0 → g ((place mm a).add i) = byte data i) ∧
      ∀ r, (∀ i < k, a + BitVec.ofNat 32 i ≠ 0 → r ≠ (place mm a).add i) → g r = f r
  | 0, _ => ⟨f, rfl, fun i hi => absurd hi (Nat.not_lt_zero i), fun _ _ => rfl⟩
  | k + 1, hk => by
    obtain ⟨g, hrun, hin, hout⟩ := placeRun_byteWrites f data ht k (by omega)
    have hsplit : byteWrites a data (k + 1) = byteWrites a data k ++
        [.write (a + BitVec.ofNat 32 k) 1 ((byte data k).setWidth 32)] := by
      unfold byteWrites
      rw [List.range_succ, List.map_append]
      rfl
    rw [hsplit, placeRun_append, hrun]
    have hq : ∀ q : Place, q.add 0 = q := fun q => by cases q <;> rfl
    by_cases h0 : a + BitVec.ofNat 32 k = 0
    · refine ⟨g, ?_, fun i hi hne => ?_, fun r hr => hout r fun i hi => hr i (by omega)⟩
      · simp only [placeRun, if_pos h0, List.append_nil]
      · refine hin i (Nat.lt_of_le_of_ne (by omega) ?_) hne
        rintro rfl
        exact hne h0
    · refine ⟨g.store ((place mm a).add k) 1 ((byte data k).setWidth 32), ?_, fun i hi hne => ?_,
        fun r hr => ?_⟩
      · simp only [placeRun, if_neg h0, List.append_nil, ht k (by omega)]
      · by_cases hik : i = k
        · have hstore := g.store_add ((place mm a).add k) 1 ((byte data k).setWidth 32) (i := 0) (by norm_num)
          rw [hq] at hstore
          rw [hik, hstore, byte_setWidth, if_pos rfl]
        · rw [Contents.store_other, hin i (by omega) hne]
          intro j hj
          rw [Nat.lt_one_iff.mp hj, hq]
          exact fun he => hik (place_add_inj he)
      · rw [Contents.store_other, hout r fun i hi => hr i (by omega)]
        intro j hj
        rw [Nat.lt_one_iff.mp hj, hq]
        exact hr k (by omega) h0

/-- **Bytes that are together**: the accesses are those of the bytes. -/
theorem splits_of_together (h : HasContents f m) (hs : mm.Served) (hmaps : m.mmio.maps = mm.maps)
    (hlen : len = 1 ∨ len = 2 ∨ len = 4) (ha : a.toNat + len ≤ hwMemSize) (ht : Together mm a len)
    (h0 : a = 0 → len = 1) : (CleanReads junk oob m a len → ReadSplits junk oob m a len) ∧
      ∀ data bs, (∀ b ∈ bs, b.toNat < hwMemSize) → CleanWrites junk oob m a len data bs →
        WriteSplits junk oob m a len data bs := by
  have hread : MemOp.InRange (.read a len) := ⟨hlen, ha⟩
  refine ⟨fun ⟨hc, hcb⟩ => ?_, fun data bs hbs ⟨hc, hcb⟩ => ?_⟩
  · obtain ⟨m₁, hrun, -⟩ := runMem_places _ h hs hmaps (List.forall_mem_singleton.mpr hread) hc
    obtain ⟨m₂, hrunb, -⟩ := runMem_places _ h hs hmaps (inRange_byteReads ha) hcb
    refine ⟨_, _, m₁, m₂, hrun, hrunb, ?_⟩
    rw [combine_byteReads]
    exact word_congr fun i hi => by rw [ht i hi]
  · have hwrite : MemOp.InRange (.write a len data) := ⟨hlen, ha⟩
    obtain ⟨m₁, hrun, -⟩ := runMem_places _ h hs hmaps
      (List.forall_mem_cons.mpr ⟨hwrite, inRange_readsOf hbs⟩) hc
    obtain ⟨m₂, hrunb, -⟩ := runMem_places _ h hs hmaps
      (List.forall_mem_append.mpr ⟨inRange_byteWrites ha data, inRange_readsOf hbs⟩) hcb
    refine ⟨_, m₁, m₂, hrun, hrunb.trans ?_⟩
    obtain ⟨g, hg, hin, hout⟩ := placeRun_byteWrites f data ht len le_rfl
    have hsame : (if a = 0 then f else f.store (place mm a) len data) = g := by
      funext r
      by_cases hz : a = 0
      · rw [if_pos hz, hout r]
        intro i hi hne
        obtain rfl : i = 0 := by have := h0 hz; omega
        exact absurd ((BitVec.add_zero a).trans hz) hne
      · have hne : ∀ i < len, a + BitVec.ofNat 32 i ≠ 0 := by
          intro i hi he
          have hnat := toNat_byteAddr ha hi
          rw [he] at hnat
          exact hz (BitVec.eq_of_toNat_eq (by simp at hnat ⊢; omega))
        rw [if_neg hz]
        by_cases hr : ∃ i < len, r = (place mm a).add i
        · obtain ⟨i, hi, rfl⟩ := hr
          rw [Contents.store_add _ _ _ _ hi, hin i hi (hne i hi)]
        · rw [Contents.store_other _ _ _ _ fun i hi he => hr ⟨i, hi, he⟩]
          exact (hout r fun i hi _ he => hr ⟨i, hi, he⟩).symm
    rw [placeRun_append, hg, placeRun, hsame]
    rfl

/-! ### Runs that replace nothing dirty -/

/-- No line of L2 is dirty. -/
def NoDirty (s : Hier) : Prop := ∀ g x, (s.l2 g x).dirty = false

/-- The line of `a` is in L2, or nothing there is dirty. -/
def Ready (s : Hier) (a : Word) : Prop := s.hit2 a = none → NoDirty s

theorem Ready.victimClean {s : Hier} (h : Ready s a) : VictimClean s a := fun hm => h hm _ _

theorem Ready.lineClean {s : Hier} (h : Ready s a) : LineClean s a := by
  intro _ hm
  rw [Hier.victim1_snd] at hm ⊢
  exact h hm _ _

theorem NoDirty.lineClean {s : Hier} (h : NoDirty s) (a : Word) : LineClean s a :=
  Ready.lineClean fun _ => h

theorem NoDirty.readClean {s : Hier} (h : NoDirty s) (a : Word) (len : ℕ) : ReadClean s a len := by
  refine ⟨h.lineClean a, fun _ => ?_⟩
  rw [Hier.draw1_eq]
  exact NoDirty.lineClean (s := { s with rand := (s.draw1 a).rand }) h _

/-- Serving a line makes none dirty, in L2 and in L1. -/
theorem line2_noDirty {s s' : Hier} {x : ℕ} (hrows : s.dram.RowsOk) (ha : a.toNat < hwMemSize)
    (hd : NoDirty s) (hl : line2 junk oob s a = some (x, s')) : NoDirty s' := by
  unfold line2 at hl
  cases hh : s.hit2 a with
  | some y =>
    rw [hh] at hl
    obtain ⟨-, rfl⟩ := Prod.mk.inj (Option.some.inj hl)
    exact hd
  | none =>
    rw [hh] at hl
    obtain ⟨d, hrun, -⟩ := alloc2_spec junk oob hrows ha
    obtain ⟨-, rfl⟩ := Prod.mk.inj (Option.some.inj (hrun.symm.trans hl))
    intro g y
    by_cases he : g = group2 a ∧ y = (s.victim2 (group2 a)).1
    · rw [he.1, he.2, Hier.l2_setL2]
    · rw [Hier.l2_setL2_of_ne _ _ he]
      exact hd g y

theorem line1_noDirty {mem : Flat} {s s' : Hier} {x : ℕ} (h : Coherent mem s) (ha : a.toNat < hwMemSize)
    (hd : NoDirty s) (hl : line1 junk oob s a = some (x, s')) : NoDirty s' := by
  cases hh : s.hit1 a with
  | some y =>
    rw [line1, hh] at hl
    obtain ⟨-, rfl⟩ := Prod.mk.inj (Option.some.inj hl)
    exact hd
  | none =>
    have hclaim : (s.claim1 a).l2 = s.l2 ∧ (s.claim1 a).dram = s.dram := by
      rw [Hier.claim1, Hier.victim1_snd]
      exact ⟨rfl, rfl⟩
    have hlow : Lower mem (s.claim1 a) := by
      rw [Hier.claim1, Hier.victim1_snd]
      exact ⟨h.lower.rows, h.lower.ram, h.lower.uniq, h.lower.idle, h.lower.data, h.lower.dram⟩
    have hdc : NoDirty (s.claim1 a) := fun g y => by
      rw [hclaim.1]
      exact hd g y
    obtain ⟨y, t, hl2, hlt, hy, -⟩ := hlow.line2 junk oob ha (Ready.victimClean fun _ => hdc)
    have hrun := line1_of_miss hh hl2 hlt hy
    obtain ⟨-, rfl⟩ := Prod.mk.inj (Option.some.inj (hrun.symm.trans hl))
    have hdt : NoDirty t := line2_noDirty hlow.rows ha hdc hl2
    exact hdt

/-- A read makes no line dirty. -/
theorem cache1Read_noDirty {mem : Flat} {s s' : Hier} {v : Word} (h : Coherent mem s)
    (ha : a.toNat + len ≤ hwMemSize) (h1 : 1 ≤ len) (hd : NoDirty s)
    (hr : cache1Read junk oob s a len = some (v, s')) : NoDirty s' := by
  obtain ⟨x, s₁, hl, hcoh, -, -⟩ := h.line1 junk oob (a := a) (by omega) (hd.lineClean a)
  have hd₁ := line1_noDirty h (by omega) hd hl
  unfold cache1Read at hr
  simp only [hl, Option.bind_eq_bind, Option.bind_some] at hr
  by_cases hcross : offsetOf a + len > 64
  · have hnext : (blockOf a + 64).toNat = a.toNat / 64 * 64 + 64 :=
      toNat_next (by simp only [hwMemSize] at ha; omega)
    have hoff : offsetOf a = a.toNat % 64 := rfl
    have hram : (blockOf a + 64).toNat < hwMemSize := by
      simp only [hwMemSize] at ha ⊢
      omega
    obtain ⟨y, s₂, hl₂, -, -, -⟩ := hcoh.line1 junk oob hram (hd₁.lineClean _)
    rw [if_pos hcross] at hr
    simp only [hl₂, Option.bind_some] at hr
    obtain ⟨-, rfl⟩ := Prod.mk.inj (Option.some.inj hr)
    exact line1_noDirty hcoh hram hd₁ hl₂
  · rw [if_neg hcross] at hr
    obtain ⟨-, rfl⟩ := Prod.mk.inj (Option.some.inj hr)
    exact hd₁

theorem hwaddrRead_noDirty {v : Word} {m' : Memory δ} (h : HasContents f m) (ha : a.toNat + len ≤ hwMemSize)
    (h1 : 1 ≤ len) (hd : NoDirty m.cache) (hr : hwaddrRead junk oob m a len = some (v, m')) :
    NoDirty m'.cache := by
  unfold hwaddrRead at hr
  cases hp : isMmio m.mmio a with
  | none =>
    rw [hp] at hr
    obtain ⟨⟨v', s⟩, hread, heq⟩ := Option.bind_eq_some_iff.mp hr
    obtain ⟨-, rfl⟩ := Prod.mk.inj (Option.some.inj heq)
    exact cache1Read_noDirty h.ram ha h1 hd hread
  | some p =>
    rw [hp] at hr
    obtain ⟨⟨v', d⟩, -, heq⟩ := Option.bind_eq_some_iff.mp hr
    obtain ⟨-, rfl⟩ := Prod.mk.inj (Option.some.inj heq)
    exact hd

theorem clean_readsOf : ∀ (bs : List Word) {m : Memory δ}, HasContents f m → m.mmio.Served → NoDirty m.cache →
    (∀ b ∈ bs, b.toNat < hwMemSize) → Clean junk oob m (readsOf bs)
  | [], _, _, _, _, _ => trivial
  | b :: bs, m, h, hs, hd, hbs => by
    have hb : b.toNat + 1 ≤ hwMemSize := hbs b (List.mem_cons_self ..)
    have hc : ReadClean m.cache b 1 := hd.readClean b 1
    refine ⟨fun _ => hc, fun v m' hr => ?_⟩
    obtain ⟨m₁, hread, h₁, hmaps⟩ := hwaddrRead_holds h hs (.inl rfl) hb fun _ => hc
    obtain ⟨-, rfl⟩ := Prod.mk.inj (Option.some.inj (hread.symm.trans hr))
    exact clean_readsOf bs h₁ (hs.congr hmaps) (hwaddrRead_noDirty h hb le_rfl hd hr)
      fun b hb => hbs b (List.mem_cons_of_mem _ hb)

/-- Once written, a line is in L2. -/
theorem cache1Write_holds2 {mem : Flat} {s s' : Hier} {data : Word} (h : Coherent mem s)
    (ha : a.toNat < hwMemSize) (hr : Ready s a) (hw : cache1Write junk oob s a 1 data = some s') :
    ∃ y, s'.Holds2 a.toNat y := by
  have hoff : offsetOf a < 64 := Nat.mod_lt _ (by norm_num)
  have hcross : ¬ offsetOf a + 1 - 1 > 0x3f := by omega
  obtain ⟨y, t, hw₂, hlow, hy, -⟩ :=
    h.lower.cache2WriteLine junk oob le_rfl (by norm_num) (by omega) ha hr.victimClean data
  rw [cache1Write, if_neg hcross, cache1WriteLine, cache2Write, if_neg hcross, hw₂] at hw
  simp only [Option.bind_eq_bind, Option.bind_some] at hw
  cases hh : s.hit1 a with
  | none =>
    rw [hh] at hw
    obtain rfl := Option.some.inj hw
    exact ⟨y, hy⟩
  | some x =>
    rw [hh] at hw
    have hfill := fill1_spec (hlow.line2_of_holds junk oob hy) hlow hy (group1 a) x 63 (by norm_num)
    obtain rfl := Option.some.inj (hfill.symm.trans hw)
    exact ⟨y, hy⟩

theorem Ready.of_holds2 {s : Hier} {y : ℕ} (hy : s.Holds2 a.toNat y) : Ready s a :=
  fun hm => absurd hy (Hier.not_holds2_of_hit2 hm y)

theorem Ready.line {s : Hier} {b : Word} (h : Ready s a) (hab : a.toNat / 64 = b.toNat / 64) : Ready s b := by
  have hhit : s.hit2 b = s.hit2 a := by
    unfold Hier.hit2 group2 tag2
    rw [hab]
  intro hm
  exact h (hhit ▸ hm)

theorem hwaddrWrite_ready {data : Word} {m' : Memory δ} (h : HasContents f m) (h0 : a ≠ 0)
    (ha : a.toNat < hwMemSize) (hr : Ready m.cache a) (hw : hwaddrWrite junk oob m a 1 data = some m') :
    Ready m'.cache a := by
  unfold hwaddrWrite at hw
  rw [if_neg h0] at hw
  cases hp : isMmio m.mmio a with
  | none =>
    rw [hp] at hw
    obtain ⟨s, hwrite, heq⟩ := Option.bind_eq_some_iff.mp hw
    obtain rfl := Option.some.inj heq
    obtain ⟨y, hy⟩ := cache1Write_holds2 h.ram ha hr hwrite
    exact .of_holds2 hy
  | some p =>
    rw [hp] at hw
    obtain ⟨d, -, heq⟩ := Option.bind_eq_some_iff.mp hw
    obtain rfl := Option.some.inj heq
    exact hr

/-- The one-byte writes to the first line, and a read there. -/
theorem clean_firstLine : ∀ (ws : List (Word × Word)) {m : Memory δ} {f : Contents} (b : Word), HasContents f m →
    m.mmio.Served → Ready m.cache 0 → (∀ w ∈ ws, w.1.toNat < 64) → b.toNat < 64 →
    Clean junk oob m (ws.map (fun w => .write w.1 1 w.2) ++ readsOf [b])
  | [], m, f, b, h, hs, hr, _, hb => by
    have hline : (0 : Word).toNat / 64 = b.toNat / 64 := by simp; omega
    have hoff : offsetOf b < 64 := Nat.mod_lt _ (by norm_num)
    exact ⟨fun _ => ⟨(hr.line hline).lineClean, fun hx => absurd hx (by omega)⟩, fun _ _ _ => trivial⟩
  | (a, data) :: ws, m, f, b, h, hs, hr, hws, hb => by
    have ha : a.toNat < 64 := hws _ (List.mem_cons_self ..)
    have hmem : a.toNat < hwMemSize := by simp only [hwMemSize]; omega
    have hline : (0 : Word).toNat / 64 = a.toNat / 64 := by simp; omega
    have hoff : offsetOf a < 64 := Nat.mod_lt _ (by norm_num)
    have hc : WriteClean m.cache a 1 := ⟨(hr.line hline).victimClean, fun hx => absurd hx (by omega)⟩
    refine ⟨fun _ _ => hc, fun m' hw => ?_⟩
    have hrest := fun w hw => hws w (List.mem_cons_of_mem _ hw)
    by_cases h0 : a = 0
    · obtain rfl : m = m' := Option.some.inj ((if_pos h0).symm.trans hw)
      exact clean_firstLine ws b h hs hr hrest hb
    · obtain ⟨m₁, hwrite, h₁, hmaps⟩ := hwaddrWrite_holds h hs (.inl rfl) (show a.toNat + 1 ≤ hwMemSize from hmem)
        h0 data fun _ => hc
      obtain rfl := Option.some.inj (hwrite.symm.trans hw)
      exact clean_firstLine ws b h₁ (hs.congr hmaps)
        ((hwaddrWrite_ready h h0 hmem (hr.line hline) hw).line hline.symm) hrest hb

/-! ### When the law fails -/

/-- The same byte everywhere in RAM, these bytes in the pool, and empty caches. -/
def blank (b : Byte) (pool : ℕ → Byte) (mm : Mmio δ) : Memory δ where
  cache := ⟨fun _ _ => ⟨false, 0, fun _ => 0⟩, fun _ _ => ⟨false, false, 0, fun _ => 0⟩,
    ⟨fun _ _ _ _ => b, fun _ _ => ⟨fun _ => 0, 0, false⟩⟩, fun _ => 0⟩
  mmio := { mm with pool := pool }

def fill (b : Byte) (pool : ℕ → Byte) : Contents
  | .ram _ => b
  | .io n => pool n

theorem holds_blank (b : Byte) (pool : ℕ → Byte) (mm : Mmio δ) : HasContents (fill b pool) (blank b pool mm) :=
  ⟨coherent_init (blank b pool mm).cache, rfl⟩

theorem noDirty_blank (b : Byte) (pool : ℕ → Byte) (mm : Mmio δ) : NoDirty (blank b pool mm).cache :=
  fun _ _ => rfl

theorem place_ram {n : ℕ} (h : place mm a = .ram n) : n = a.toNat := by
  unfold place at h
  cases hp : isMmio mm a with
  | none =>
    rw [hp] at h
    exact (Place.ram.inj h).symm
  | some p =>
    rw [hp] at h
    exact nomatch h

theorem cleanReads_blank (b : Byte) (pool : ℕ → Byte) (hs : mm.Served) (ha : a.toNat + len ≤ hwMemSize) :
    CleanReads junk oob (blank b pool mm) a len := by
  refine ⟨⟨fun _ => (noDirty_blank b pool mm).readClean a len, fun _ _ _ => trivial⟩, ?_⟩
  rw [byteReads_eq]
  exact clean_readsOf _ (holds_blank b pool mm) (hs.congr rfl) (noDirty_blank b pool mm) (byteAddr_lt ha)

/-- A read that is that of its bytes finds the same bytes at both places. -/
theorem bytes_of_splits {b : Byte} {pool : ℕ → Byte} (hs : mm.Served) (hlen : len = 1 ∨ len = 2 ∨ len = 4)
    (ha : a.toNat + len ≤ hwMemSize) (h : ReadSplits junk oob (blank b pool mm) a len) {i : ℕ} (hi : i < len) :
    fill b pool ((place mm a).add i) = fill b pool (place mm (a + BitVec.ofNat 32 i)) := by
  have hread : MemOp.InRange (.read a len) := ⟨hlen, ha⟩
  obtain ⟨hcleanr, hclean⟩ : CleanReads junk oob (blank b pool mm) a len := cleanReads_blank b pool hs ha
  obtain ⟨v, vs, m₁, m₂, hrun, hrunb, hv⟩ := h
  obtain ⟨m₁', hrun', -⟩ := runMem_places _ (holds_blank b pool mm) hs rfl
    (List.forall_mem_singleton.mpr hread) hcleanr
  obtain ⟨m₂', hrunb', -⟩ := runMem_places _ (holds_blank b pool mm) hs rfl (inRange_byteReads ha) hclean
  obtain ⟨heq, -⟩ := Prod.mk.inj (Option.some.inj (hrun.symm.trans hrun'))
  obtain ⟨rfl, -⟩ := Prod.mk.inj (Option.some.inj (hrunb.symm.trans hrunb'))
  have hword : (fill b pool).load (place mm a) len =
      word (fun i => fill b pool (place mm (a + BitVec.ofNat 32 i))) len := by
    rw [← combine_byteReads, ← hv]
    exact (List.cons.inj heq).1.symm
  have hi4 : i < 4 := by omega
  have hbytes := congrArg (byte · i) hword
  dsimp only [Contents.load] at hbytes
  rwa [byte_word _ _ _ hi4, byte_word _ _ _ hi4, if_pos hi, if_pos hi] at hbytes

/-- If every read is that of its bytes, the bytes are together. -/
theorem together_of_splits (hs : mm.Served) (hlen : len = 1 ∨ len = 2 ∨ len = 4)
    (ha : a.toNat + len ≤ hwMemSize)
    (h : ∀ (b : Byte) (pool : ℕ → Byte), ReadSplits junk oob (blank b pool mm) a len) :
    Together mm a len := by
  intro i hi
  have hbyte := fun b pool => bytes_of_splits hs hlen ha (h b pool) hi
  cases hq : place mm (a + BitVec.ofNat 32 i) with
  | ram k =>
    cases hp : place mm a with
    | ram n =>
      rw [Place.add, place_ram hp, place_ram hq, toNat_byteAddr ha hi]
    | io n =>
      have hne := hbyte 1 fun _ => 0
      rw [hp, hq] at hne
      simp [fill, Place.add] at hne
  | io k =>
    cases hp : place mm a with
    | ram n =>
      have hne := hbyte 1 fun _ => 0
      rw [hp, hq] at hne
      simp [fill, Place.add] at hne
    | io n =>
      have hne := hbyte 0 fun j => if j = n + i then 1 else 0
      rw [hp, hq] at hne
      by_cases hk : k = n + i
      · rw [hk]
        rfl
      · simp [fill, Place.add, hk] at hne

theorem one_lt_mem : ∀ b ∈ [(1 : Word)], b.toNat < hwMemSize := by
  intro b hb
  rw [List.mem_singleton.mp hb]
  decide

theorem cleanWrites_blank (hs : mm.Served) (hlen : len = 1 ∨ len = 2 ∨ len = 4) :
    CleanWrites junk oob (blank 0 (fun _ => 0) mm) 0 len 0x100 [1] := by
  have hs' : (blank 0 (fun _ => 0) mm).mmio.Served := hs.congr rfl
  refine ⟨⟨fun h0 => absurd rfl h0, fun m' hw => ?_⟩, ?_⟩
  · obtain rfl := Option.some.inj ((if_pos rfl).symm.trans hw)
    exact clean_readsOf [1] (holds_blank 0 _ mm) hs' (noDirty_blank 0 _ mm) one_lt_mem
  · have hwrites : byteWrites 0 0x100 len = ((List.range len).map fun i =>
        ((0 : Word) + BitVec.ofNat 32 i, (byte 0x100 i).setWidth 32)).map fun w => .write w.1 1 w.2 := by
      unfold byteWrites
      rw [List.map_map]
      rfl
    have hadd : ∀ i < 4, ((0 : Word) + BitVec.ofNat 32 i).toNat = i := by decide
    rw [hwrites]
    refine clean_firstLine _ 1 (holds_blank 0 _ mm) hs' (fun _ => noDirty_blank 0 _ mm) (fun w hw => ?_) (by decide)
    obtain ⟨i, hi, rfl⟩ := List.mem_map.mp hw
    have hi' := List.mem_range.mp hi
    rw [hadd i (by omega)]
    omega

/-- If every write at address 0 is that of its bytes, it is of one byte. -/
theorem one_of_splits (hs : mm.Served) (hlen : len = 1 ∨ len = 2 ∨ len = 4) (ht : Together mm 0 len)
    (h : WriteSplits junk oob (blank 0 (fun _ => 0) mm) 0 len 0x100 [1]) : len = 1 := by
  by_contra hne
  have hlen2 : 1 < len := by omega
  obtain ⟨hclean, hcleanb⟩ : CleanWrites junk oob (blank 0 (fun _ => 0) mm) 0 len 0x100 [1] := cleanWrites_blank hs hlen
  obtain ⟨vs, m₁, m₂, hrun, hrunb⟩ := h
  have hzero : (0 : Word).toNat = 0 := rfl
  have ha : (0 : Word).toNat + len ≤ hwMemSize := by
    simp only [hwMemSize]
    omega
  have hwrite : MemOp.InRange (.write 0 len 0x100) := ⟨hlen, ha⟩
  obtain ⟨m₁', hrun', -⟩ := runMem_places _ (holds_blank 0 (fun _ => 0) mm) hs rfl
    (List.forall_mem_cons.mpr ⟨hwrite, inRange_readsOf one_lt_mem⟩) hclean
  obtain ⟨m₂', hrunb', -⟩ := runMem_places _ (holds_blank 0 (fun _ => 0) mm) hs rfl
    (List.forall_mem_append.mpr ⟨inRange_byteWrites ha _, inRange_readsOf one_lt_mem⟩) hcleanb
  obtain ⟨rfl, -⟩ := Prod.mk.inj (Option.some.inj (hrun.symm.trans hrun'))
  obtain ⟨heq, -⟩ := Prod.mk.inj (Option.some.inj (hrunb.symm.trans hrunb'))
  obtain ⟨g, hg, hin, -⟩ := placeRun_byteWrites (fill 0 fun _ => 0) 0x100 ht len le_rfl
  have hone : g (place mm 1) = 1 := by
    have hat := hin 1 hlen2 (by decide)
    rw [← ht 1 hlen2] at hat
    exact hat
  rw [placeRun_append, hg, placeRun_readsOf] at heq
  have hzero : fill 0 (fun _ => 0) (place mm 1) = 0 := by cases place mm 1 <;> rfl
  have hfirst : (fill 0 fun _ => 0).load (place mm 1) 1 = (g (place mm 1)).setWidth 32 :=
    (List.cons.inj heq).1
  rw [load_one, hzero, hone] at hfirst
  exact absurd hfirst (by decide)

end Runs

/-! ### The window of the video memory -/

/-- The address is in the window that `init_vga` adds. -/
def InVmem (a : Word) : Prop := 0xa0000 ≤ a ∧ a ≤ 0xbffff

instance (a : Word) : Decidable (InVmem a) := inferInstanceAs (Decidable (_ ∧ _))

variable (s : Screen) {a : Word} {len : ℕ}

theorem Screen.served : s.mmio.Served where
  below p hp := by
    rw [List.mem_singleton.mp hp]
    decide
  callback p hp addr len isWrite dev := by
    rw [List.mem_singleton.mp hp]
    unfold vgaVmemIoHandler
    dsimp only
    split <;> rfl

theorem Screen.place_eq : place s.mmio a = if InVmem a then .io (a - 0xa0000).toNat else .ram a.toNat := by
  have hmmio : isMmio s.mmio a =
      if InVmem a then some ⟨0xa0000, 0xbffff, 0, vgaVmemIoHandler⟩ else none := by
    refine List.find?_singleton.trans ?_
    exact if_congr decide_eq_true_iff rfl rfl
  unfold place
  rw [hmmio]
  by_cases h : InVmem a
  · rw [if_pos h, if_pos h]
    dsimp only
    rw [Nat.zero_add]
  · rw [if_neg h, if_neg h]

/-- The bytes are together where they are all in the window, or none of them. -/
theorem Screen.together_iff (ha : a.toNat + len ≤ hwMemSize) :
    Together s.mmio a len ↔ ∀ i < len, (InVmem (a + BitVec.ofNat 32 i) ↔ InVmem a) := by
  refine forall_congr' fun i => imp_congr_right fun hi => ?_
  have hadd := toNat_byteAddr ha hi
  rw [s.place_eq, s.place_eq]
  by_cases h : InVmem a
  · by_cases h' : InVmem (a + BitVec.ofNat 32 i)
    · have hdiff : (a + BitVec.ofNat 32 i - 0xa0000).toNat = (a - 0xa0000).toNat + i := by
        obtain ⟨hlow, -⟩ := h
        simp only [hwMemSize] at ha
        bv_omega
      rw [if_pos h', if_pos h, Place.add, hdiff]
      exact iff_of_true rfl (iff_of_true h' h)
    · simp [h, h', Place.add]
  · by_cases h' : InVmem (a + BitVec.ofNat 32 i)
    · simp [h, h', Place.add]
    · simp [h, h', Place.add, hadd]

/-- A screen that is off. -/
def darkScreen : Screen := ⟨fun _ => 0, ⟨fun _ => false, false⟩, fun _ _ => 0⟩

end Nemu
