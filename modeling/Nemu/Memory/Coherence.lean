/-
# Coherence of the caches with a flat memory

The two caches and the DRAM together hold one flat memory `mem`: a line that L2
holds has the bytes of `mem`, a byte with no dirty line above it has them in
DRAM too (`Lower`), and so has a line that L1 holds (`Upper`). A byte is in at
most one way of its set.

A miss in L2 keeps this, for `mem` itself when the line it replaces is clean.
When that line is dirty its bytes are lost and the new line gets bytes of L1
instead: the hierarchy then holds the memory `evict` describes.

Key definitions: `Holds1`, `Holds2`, `Lower`, `Upper`, `Coherent`, `evict`.
Key theorems: `coherent_init`, `alloc2_spec`, `Lower.alloc2`.
-/
import Nemu.Memory.Cache

namespace Nemu

open Bytes

/-- The bytes of the DRAM by their number. -/
def Dram.flat (d : Dram) : Flat := fun n => d.byteAt (BitVec.ofNat 32 n)

theorem Dram.flat_toNat (d : Dram) (a : Word) : d.flat a.toNat = d.byteAt a := by
  rw [Dram.flat, BitVec.ofNat_toNat, BitVec.setWidth_eq]

/-! ### Addresses in a line -/

theorem toNat_blockOf (a : Word) : (blockOf a).toNat = a.toNat / 64 * 64 := toNat_and_shl_ones a

theorem toNat_block_add (a : Word) {j : ℕ} (hj : j < 64) :
    (blockOf a + BitVec.ofNat 32 j).toNat = a.toNat / 64 * 64 + j := by
  have ha := a.isLt
  rw [toNat_add_ofNat (by rw [toNat_blockOf]; omega), toNat_blockOf]

/-- The rest of a crossing access starts the next line. -/
theorem add_front (a : Word) :
    a + BitVec.ofNat 32 (0x3f - offsetOf a + 1) = blockOf a + 64 := by
  have ha := a.isLt
  have h64 : (64 : Word).toNat = 64 := rfl
  apply BitVec.eq_of_toNat_eq
  rw [BitVec.toNat_add, BitVec.toNat_add, toNat_blockOf, BitVec.toNat_ofNat, offsetOf, h64]
  omega

theorem toNat_next {a : Word} (h : a.toNat / 64 * 64 + 64 < 2 ^ 32) :
    (blockOf a + 64).toNat = a.toNat / 64 * 64 + 64 := by
  rw [BitVec.toNat_add, toNat_blockOf]
  exact Nat.mod_eq_of_lt h

namespace Hier

/-! ### Which way holds a byte -/

/-- Way `x` of L1 holds byte `n`. -/
def Holds1 (s : Hier) (n x : ℕ) : Prop :=
  x < 8 ∧ (s.l1 (n / 64 % 128) x).valid = true ∧ (s.l1 (n / 64 % 128) x).tag = n / 64 / 128

/-- Way `x` of L2 holds byte `n`. -/
def Holds2 (s : Hier) (n x : ℕ) : Prop :=
  x < 16 ∧ (s.l2 (n / 64 % 4096) x).valid = true ∧ (s.l2 (n / 64 % 4096) x).tag = n / 64 / 4096

/-- The bytes of a line are held together. -/
theorem holds1_line {s : Hier} {m n : ℕ} (h : m / 64 = n / 64) (x : ℕ) :
    s.Holds1 m x ↔ s.Holds1 n x := by rw [Holds1, Holds1, h]

theorem holds2_line {s : Hier} {m n : ℕ} (h : m / 64 = n / 64) (x : ℕ) :
    s.Holds2 m x ↔ s.Holds2 n x := by rw [Holds2, Holds2, h]

theorem holds1_of_hit1 {s : Hier} {a : Word} {x : ℕ} (h : s.hit1 a = some x) :
    s.Holds1 a.toNat x := by
  have hx := List.mem_range.mp (List.mem_of_find?_eq_some h)
  have hp := List.find?_some h
  simp only [Bool.and_eq_true, beq_iff_eq] at hp
  exact ⟨hx, hp⟩

theorem not_holds1_of_hit1 {s : Hier} {a : Word} (h : s.hit1 a = none) (x : ℕ) :
    ¬ s.Holds1 a.toNat x := by
  rintro ⟨hx, hv, ht⟩
  have := List.find?_eq_none.mp h x (List.mem_range.mpr hx)
  simp only [Bool.and_eq_true, beq_iff_eq, not_and] at this
  exact this hv ht

theorem holds2_of_hit2 {s : Hier} {a : Word} {x : ℕ} (h : s.hit2 a = some x) :
    s.Holds2 a.toNat x := by
  have hx := List.mem_range.mp (List.mem_of_find?_eq_some h)
  have hp := List.find?_some h
  simp only [Bool.and_eq_true, beq_iff_eq] at hp
  exact ⟨hx, hp⟩

theorem not_holds2_of_hit2 {s : Hier} {a : Word} (h : s.hit2 a = none) (x : ℕ) :
    ¬ s.Holds2 a.toNat x := by
  rintro ⟨hx, hv, ht⟩
  have := List.find?_eq_none.mp h x (List.mem_range.mpr hx)
  simp only [Bool.and_eq_true, beq_iff_eq, not_and] at this
  exact this hv ht

/-! ### The victim -/

theorem victim1_lt (s : Hier) (g : ℕ) : (s.victim1 g).1 < 8 := by
  unfold victim1
  split
  · next x h => exact List.mem_range.mp (List.mem_of_find?_eq_some h)
  · exact Nat.mod_lt _ (by norm_num)

theorem victim2_lt (s : Hier) (g : ℕ) : (s.victim2 g).1 < 16 := by
  unfold victim2
  split
  · next x h => exact List.mem_range.mp (List.mem_of_find?_eq_some h)
  · exact Nat.mod_lt _ (by norm_num)

/-- Choosing a victim only draws from `rand()`. -/
theorem victim1_snd (s : Hier) (g : ℕ) :
    (s.victim1 g).2 = { s with rand := (s.victim1 g).2.rand } := by
  unfold victim1; split <;> rfl

theorem victim2_snd (s : Hier) (g : ℕ) :
    (s.victim2 g).2 = { s with rand := (s.victim2 g).2.rand } := by
  unfold victim2; split <;> rfl

/-! ### Updates of one way -/

@[simp] theorem l1_setL1 (s : Hier) (g x : ℕ) (c : Cache1) : (s.setL1 g x c).l1 g x = c := by
  simp [setL1]

@[simp] theorem l2_setL2 (s : Hier) (g x : ℕ) (c : Cache2) : (s.setL2 g x c).l2 g x = c := by
  simp [setL2]

theorem l1_setL1_of_ne (s : Hier) {g x g' x' : ℕ} (c : Cache1) (h : ¬ (g' = g ∧ x' = x)) :
    (s.setL1 g x c).l1 g' x' = s.l1 g' x' := if_neg h

theorem l2_setL2_of_ne (s : Hier) {g x g' x' : ℕ} (c : Cache2) (h : ¬ (g' = g ∧ x' = x)) :
    (s.setL2 g x c).l2 g' x' = s.l2 g' x' := if_neg h

theorem setL2_self (s : Hier) (g x : ℕ) : s.setL2 g x (s.l2 g x) = s := by
  have : (s.setL2 g x (s.l2 g x)).l2 = s.l2 := by
    funext g' x'
    by_cases h : g' = g ∧ x' = x
    · rw [h.1, h.2, l2_setL2]
    · exact l2_setL2_of_ne s _ h
  exact congrArg (fun f => { s with l2 := f }) this

theorem setL1_setL1 (s : Hier) (g x : ℕ) (c c' : Cache1) :
    (s.setL1 g x c).setL1 g x c' = s.setL1 g x c' := by
  have : ((s.setL1 g x c).setL1 g x c').l1 = (s.setL1 g x c').l1 := by
    funext g' x'
    by_cases h : g' = g ∧ x' = x
    · rw [h.1, h.2, l1_setL1, l1_setL1]
    · rw [l1_setL1_of_ne _ _ h, l1_setL1_of_ne _ _ h, l1_setL1_of_ne _ _ h]
  exact congrArg (fun f => { s with l1 := f }) this

theorem setL2_setL2 (s : Hier) (g x : ℕ) (c c' : Cache2) :
    (s.setL2 g x c).setL2 g x c' = s.setL2 g x c' := by
  have : ((s.setL2 g x c).setL2 g x c').l2 = (s.setL2 g x c').l2 := by
    funext g' x'
    by_cases h : g' = g ∧ x' = x
    · rw [h.1, h.2, l2_setL2, l2_setL2]
    · rw [l2_setL2_of_ne _ _ h, l2_setL2_of_ne _ _ h, l2_setL2_of_ne _ _ h]
  exact congrArg (fun f => { s with l2 := f }) this

/-- Who holds a byte after one way of L2 was replaced. -/
theorem holds2_setL2 (s : Hier) {g x : ℕ} (hx : x < 16) (c : Cache2) (n y : ℕ) :
    (s.setL2 g x c).Holds2 n y ↔
      if n / 64 % 4096 = g ∧ y = x then c.valid = true ∧ c.tag = n / 64 / 4096
      else s.Holds2 n y := by
  split_ifs with h
  · rw [Holds2, h.1, h.2, l2_setL2]
    exact ⟨And.right, fun hc => ⟨hx, hc⟩⟩
  · rw [Holds2, l2_setL2_of_ne s c h, Holds2]

theorem holds1_setL1 (s : Hier) {g x : ℕ} (hx : x < 8) (c : Cache1) (n y : ℕ) :
    (s.setL1 g x c).Holds1 n y ↔
      if n / 64 % 128 = g ∧ y = x then c.valid = true ∧ c.tag = n / 64 / 128
      else s.Holds1 n y := by
  split_ifs with h
  · rw [Holds1, h.1, h.2, l1_setL1]
    exact ⟨And.right, fun hc => ⟨hx, hc⟩⟩
  · rw [Holds1, l1_setL1_of_ne s c h, Holds1]

end Hier

/-! ### The invariant -/

/-- L2 and the DRAM hold the memory `mem`. -/
structure Lower (mem : Flat) (s : Hier) : Prop where
  rows : s.dram.RowsOk
  ram : ∀ {n x}, s.Holds2 n x → n < hwMemSize
  uniq : ∀ {n x y}, s.Holds2 n x → s.Holds2 n y → x = y
  idle : ∀ {g x}, (s.l2 g x).valid = false → (s.l2 g x).dirty = false
  data : ∀ {n x}, s.Holds2 n x → (s.l2 (n / 64 % 4096) x).data (n % 64) = mem n
  dram : ∀ {n}, n < hwMemSize → (∀ x, s.Holds2 n x → (s.l2 (n / 64 % 4096) x).dirty = false) →
    s.dram.flat n = mem n

/-- L1 holds the memory `mem`. -/
structure Upper (mem : Flat) (s : Hier) : Prop where
  ram : ∀ {n x}, s.Holds1 n x → n < hwMemSize
  uniq : ∀ {n x y}, s.Holds1 n x → s.Holds1 n y → x = y
  data : ∀ {n x}, s.Holds1 n x → (s.l1 (n / 64 % 128) x).data (n % 64) = mem n

/-- The hierarchy holds the memory `mem`. -/
structure Coherent (mem : Flat) (s : Hier) : Prop where
  lower : Lower mem s
  upper : Upper mem s

/-- After `init_cache` and `init_ddr3` the DRAM is the memory. -/
theorem coherent_init (s : Hier) :
    Coherent s.dram.flat { initCache s with dram := s.dram.initDdr3 } where
  lower :=
    { rows := Dram.rowsOk_initDdr3 s.dram
      ram := fun h => absurd h.2.1 Bool.false_ne_true
      uniq := fun h => absurd h.2.1 Bool.false_ne_true
      idle := fun _ => rfl
      data := fun h => absurd h.2.1 Bool.false_ne_true
      dram := fun _ _ => rfl }
  upper :=
    { ram := fun h => absurd h.2.1 Bool.false_ne_true
      uniq := fun h => absurd h.2.1 Bool.false_ne_true
      data := fun h => absurd h.2.1 Bool.false_ne_true }

/-! ### Serving a miss in L2 -/

section Serve

variable (junk : ℕ → Byte) (oob : ℕ → ℕ → Byte)

theorem dramRead_byte {d : Dram} (h : d.RowsOk) {a : Word} (ha : a.toNat < hwMemSize) :
    ∃ v d', dramRead junk d a 1 = some (v, d') ∧ d'.RowsOk ∧ d'.flat = d.flat ∧
      byte (v &&& low 1) 0 = d.flat a.toNat := by
  obtain ⟨v, d', hr, hok, hd, hb⟩ := dramRead_spec junk h (a := a) (n := 1) le_rfl
    (by norm_num) (by omega)
  refine ⟨v, d', hr, hok, ?_, ?_⟩
  · unfold Dram.flat Dram.byteAt
    rw [hd]
  · have h0 := hb 0 one_pos
    rw [BitVec.add_zero] at h0
    rw [byte_and_low v (by norm_num), if_pos one_pos, h0, Dram.flat_toNat]

theorem dramWrite_flat {d : Dram} (h : d.RowsOk) {a : Word} {l : ℕ} (h1 : 1 ≤ l)
    (h4 : l ≤ 4) (ha : a.toNat + l ≤ hwMemSize) (data : Word) :
    ∃ d', dramWrite junk d a l data = some d' ∧ d'.RowsOk ∧
      ∀ n < hwMemSize, d'.flat n = store d.flat a.toNat l data n := by
  obtain ⟨d', hw, hok, hb⟩ := dramWrite_spec junk h h4 ha h1 data
  refine ⟨d', hw, hok, fun n hn => ?_⟩
  have hn' : (BitVec.ofNat 32 n).toNat = n := by
    rw [BitVec.toNat_ofNat]
    exact Nat.mod_eq_of_lt (by simp only [hwMemSize] at hn; omega)
  rw [Dram.flat, hb _ (by rwa [hn']), hn']
  rfl

/-- Filling a line of L2 copies what DRAM returns, as long as its reads keep `R`. -/
theorem fill2_of_reads {R : Dram → Prop} {f : ℕ → Byte} {s : Hier} {a : Word}
    (hread : ∀ d, R d → ∀ j < 64, ∃ v d',
      dramRead junk d (blockOf a + BitVec.ofNat 32 j) 1 = some (v, d') ∧ byte (v &&& low 1) 0 = f j ∧ R d')
    (h : R s.dram) (g x : ℕ) : ∀ n ≤ 64, ∃ d,
      fill2 junk s (blockOf a) g x n = some (({ s with dram := d } : Hier).setL2 g x
        { s.l2 g x with data := fun i => if i < n then f i else (s.l2 g x).data i }) ∧ R d
  | 0, _ => ⟨s.dram, by
      simp only [fill2, Nat.not_lt_zero, if_false]
      exact congrArg some (Hier.setL2_self s g x).symm, h⟩
  | n + 1, hn => by
    obtain ⟨d, hf, hd⟩ := fill2_of_reads hread h g x n (by omega)
    obtain ⟨v, d', hr, hv, hd'⟩ := hread d hd n (by omega)
    refine ⟨d', ?_, hd'⟩
    have hset : ∀ c, (({ s with dram := d } : Hier).setL2 g x c).dram = d := fun _ => rfl
    simp only [fill2, hf, Option.bind_eq_bind, Option.bind_some, hset, hr]
    have hdata : ∀ i, (if i = n then byte (v &&& low 1) 0 else if i < n then f i else (s.l2 g x).data i) =
        if i < n + 1 then f i else (s.l2 g x).data i := by
      intro i
      rcases Nat.lt_trichotomy i n with hi | hi | hi
      · rw [if_neg hi.ne, if_pos hi, if_pos (by omega)]
      · rw [if_pos hi, if_pos (by omega), hv, hi]
      · rw [if_neg hi.ne', if_neg (by omega), if_neg (by omega)]
    have hc : ∀ c c', (({ s with dram := d' } : Hier).setL2 g x c).setL2 g x c' =
        ({ s with dram := d' } : Hier).setL2 g x c' := Hier.setL2_setL2 _ g x
    change some ((({ s with dram := d' } : Hier).setL2 g x _).setL2 g x _) = _
    rw [hc]
    simp only [Hier.l2_setL2, hdata]

/-- Filling a line of L2 copies the block from DRAM. -/
theorem fill2_spec {s : Hier} (h : s.dram.RowsOk) {a : Word} (ha : a.toNat < hwMemSize)
    (g x : ℕ) : ∀ n ≤ 64, ∃ d,
      fill2 junk s (blockOf a) g x n = some (({ s with dram := d } : Hier).setL2 g x
        { s.l2 g x with data := fun i =>
            if i < n then s.dram.flat (a.toNat / 64 * 64 + i) else (s.l2 g x).data i }) ∧
      d.RowsOk ∧ d.flat = s.dram.flat := by
  refine fill2_of_reads (R := fun d => d.RowsOk ∧ d.flat = s.dram.flat) junk ?_ ⟨h, rfl⟩ g x
  rintro d ⟨hok, hd⟩ j hj
  have hblock := toNat_block_add a hj
  obtain ⟨v, d', hr, hok', hd', hv⟩ := dramRead_byte junk hok
    (a := blockOf a + BitVec.ofNat 32 j) (by rw [hblock]; simp only [hwMemSize] at *; omega)
  rw [hblock, hd] at hv
  exact ⟨v, d', hr, hv, hok', hd'.trans hd⟩

/-- The write-back writes the bytes one after the other: `R n` once `n` are written. -/
theorem writeBack2_of_writes {R : ℕ → Dram → Prop} {s : Hier} {a : Word} {g x : ℕ}
    (hwrite : ∀ n < 64, ∀ d, R n d → ∃ d', dramWrite junk d (blockOf a + BitVec.ofNat 32 n) 1
      ((l1Raw oob s g x n).setWidth 32) = some d' ∧ R (n + 1) d') (h : R 0 s.dram) :
    ∀ n ≤ 64, ∃ d, writeBack2 junk oob s (blockOf a) g x n = some { s with dram := d } ∧ R n d
  | 0, _ => ⟨s.dram, rfl, h⟩
  | n + 1, hn => by
    obtain ⟨d, hf, hd⟩ := writeBack2_of_writes hwrite h n (by omega)
    obtain ⟨d', hw, hd'⟩ := hwrite n (by omega) d hd
    have hraw : l1Raw oob { s with dram := d } g x n = l1Raw oob s g x n := rfl
    refine ⟨d', ?_, hd'⟩
    simp only [writeBack2, hf, Option.bind_eq_bind, Option.bind_some, hraw, hw]
    rfl

/-- The write-back stores a line of L1, at the address of the block. -/
theorem writeBack2_spec {s : Hier} (h : s.dram.RowsOk) {a : Word} (ha : a.toNat < hwMemSize)
    (g x : ℕ) : ∀ n ≤ 64, ∃ d,
      writeBack2 junk oob s (blockOf a) g x n = some { s with dram := d } ∧ d.RowsOk ∧
      ∀ m < hwMemSize, d.flat m =
        if a.toNat / 64 * 64 ≤ m ∧ m < a.toNat / 64 * 64 + n then
          l1Raw oob s g x (m - a.toNat / 64 * 64)
        else s.dram.flat m := by
  refine writeBack2_of_writes junk oob ?_ ⟨h, fun m _ => (if_neg (by omega)).symm⟩
  rintro n hn d ⟨hok, hd⟩
  have hj := toNat_block_add a hn
  obtain ⟨d', hw, hok', hd'⟩ := dramWrite_flat junk hok (a := blockOf a + BitVec.ofNat 32 n)
    le_rfl (by norm_num) (by rw [hj]; simp only [hwMemSize] at *; omega)
    ((l1Raw oob s g x n).setWidth 32)
  refine ⟨d', hw, hok', fun m hm => ?_⟩
  rw [hd' m hm, store, hj, hd m hm]
  rcases Nat.lt_trichotomy m (a.toNat / 64 * 64 + n) with hi | hi | hi
  · rw [if_neg (by omega)]
    exact if_congr (by omega) rfl rfl
  · rw [if_pos (by omega), if_pos (by omega), hi, Nat.sub_self, Nat.add_sub_cancel_left,
      byte_setWidth, if_pos rfl]
  · rw [if_neg (by omega), if_neg (by omega), if_neg (by omega)]

/-- The memory a miss on `a` leaves: the same, unless the victim is dirty.
Then the victim's line is what DRAM last had of it, and the line of `a` is
what the write-back took from L1. -/
def evict (s : Hier) (a : Word) (mem : Flat) : Flat := fun n =>
  let x := (s.victim2 (group2 a)).1
  let c := s.l2 (group2 a) x
  if c.dirty then
    if n / 64 = a.toNat / 64 then l1Raw oob s (group2 a) x (n % 64)
    else if n / 64 = c.tag * 4096 + group2 a then s.dram.flat n
    else mem n
  else mem n

theorem alloc2_eq (s : Hier) (a : Word) : alloc2 junk oob s a =
    (if ((s.victim2 (group2 a)).2.l2 (group2 a) (s.victim2 (group2 a)).1).dirty then
        writeBack2 junk oob (s.victim2 (group2 a)).2 (blockOf a) (group2 a)
          (s.victim2 (group2 a)).1 64
      else some (s.victim2 (group2 a)).2).bind fun t =>
      (fill2 junk (t.setL2 (group2 a) (s.victim2 (group2 a)).1
        { t.l2 (group2 a) (s.victim2 (group2 a)).1 with
          valid := true, tag := tag2 a, dirty := false }) (blockOf a) (group2 a)
        (s.victim2 (group2 a)).1 64).bind fun t => some ((s.victim2 (group2 a)).1, t) := by
  unfold alloc2
  split_ifs with h
  · simp only [if_pos h]; rfl
  · simp only [if_neg h]; rfl

/-- What a miss does to the hierarchy. -/
theorem alloc2_spec {s : Hier} (h : s.dram.RowsOk) {a : Word} (ha : a.toNat < hwMemSize) :
    ∃ d, alloc2 junk oob s a = some ((s.victim2 (group2 a)).1,
      ({ s with dram := d, rand := (s.victim2 (group2 a)).2.rand } : Hier).setL2 (group2 a)
        (s.victim2 (group2 a)).1 ⟨true, false, tag2 a, fun i =>
          if i < 64 then d.flat (a.toNat / 64 * 64 + i)
          else (s.l2 (group2 a) (s.victim2 (group2 a)).1).data i⟩) ∧
      d.RowsOk ∧ ∀ n < hwMemSize, d.flat n =
        if (s.l2 (group2 a) (s.victim2 (group2 a)).1).dirty = true ∧ n / 64 = a.toNat / 64 then
          l1Raw oob s (group2 a) (s.victim2 (group2 a)).1 (n % 64)
        else s.dram.flat n := by
  set g := group2 a
  set x := (s.victim2 g).1 with hx
  set s1 := (s.victim2 g).2 with hs1
  have h1 : s1 = { s with rand := s1.rand } := Hier.victim2_snd s g
  -- the write-back, when there is one
  have hwb : ∃ d, (if (s1.l2 g x).dirty then writeBack2 junk oob s1 (blockOf a) g x 64
      else some s1) = some { s1 with dram := d } ∧ d.RowsOk ∧ ∀ n < hwMemSize, d.flat n =
        if (s.l2 g x).dirty = true ∧ n / 64 = a.toNat / 64 then l1Raw oob s g x (n % 64)
        else s.dram.flat n := by
    have hdr : s1.dram = s.dram := by rw [h1]
    have hdirty : (s1.l2 g x).dirty = (s.l2 g x).dirty := by rw [h1]
    rw [hdirty]
    cases hd : (s.l2 g x).dirty with
    | false => exact ⟨s1.dram, rfl, by rwa [hdr], fun n _ => by simp [hdr]⟩
    | true =>
      obtain ⟨d, hw, hok, hf⟩ := writeBack2_spec junk oob (s := s1) (by rwa [hdr]) ha g x 64 le_rfl
      refine ⟨d, hw, hok, fun n hn => ?_⟩
      have hraw : ∀ i, l1Raw oob s1 g x i = l1Raw oob s g x i := fun i => by rw [h1]; rfl
      rw [hf n hn, hdr, hraw]
      by_cases hk : n / 64 = a.toNat / 64
      · rw [if_pos (by omega), if_pos ⟨rfl, hk⟩, show n - a.toNat / 64 * 64 = n % 64 by omega]
      · rw [if_neg (by omega), if_neg fun hc => hk hc.2]
  obtain ⟨d, hw, hok, hd⟩ := hwb
  set s2 : Hier := { s1 with dram := d }
  set s3 := s2.setL2 g x { s2.l2 g x with valid := true, tag := tag2 a, dirty := false } with hs3
  obtain ⟨d', hf, hok', hd'⟩ := fill2_spec junk (s := s3) hok ha g x 64 le_rfl
  have hflat : d'.flat = d.flat := hd'
  refine ⟨d', ?_, hok', fun n hn => by rw [hflat, hd n hn]⟩
  rw [alloc2_eq, ← hx, ← hs1, hw, Option.bind_some, hf, Option.bind_some]
  have hset : ({ s3 with dram := d' } : Hier) = ({ s2 with dram := d' } : Hier).setL2 g x
      { s2.l2 g x with valid := true, tag := tag2 a, dirty := false } := rfl
  rw [hset, Hier.setL2_setL2, hs3, Hier.l2_setL2]
  have hbase : ({ s2 with dram := d' } : Hier) = { s with dram := d', rand := s1.rand } := by
    simp only [s2]; rw [h1]
  have hl2 : s2.l2 = s.l2 := by simp only [s2]; rw [h1]
  rw [hbase, hl2, hflat]
  rfl

/-- The state after the draws that serving `a` in L2 makes. -/
def Hier.draw2 (s : Hier) (a : Word) : Hier :=
  if (s.hit2 a).isSome then s else (s.victim2 (group2 a)).2

/-- What serving `a` in L2 leaves alone: L1 and the other sets. -/
structure Served2 (s : Hier) (a : Word) (s' : Hier) : Prop where
  l1 : s'.l1 = s.l1
  l2 : ∀ {g}, g ≠ group2 a → s'.l2 g = s.l2 g
  rand : s'.rand = (s.draw2 a).rand

/-- A line that was missed is in no way. -/
theorem Hier.not_holds2_of_miss {s : Hier} {a : Word} (hm : s.hit2 a = none) {n : ℕ}
    (hn : n / 64 = a.toNat / 64) (y : ℕ) : ¬ s.Holds2 n y :=
  fun hy => Hier.not_holds2_of_hit2 hm y ((Hier.holds2_line hn y).mp hy)

/-- Who holds a byte after a way was filled with the line of `a`. -/
theorem Hier.holds2_filled {s t : Hier} (ht : t.l2 = s.l2) {a : Word} {x : ℕ} (hx : x < 16) {c : Cache2}
    (hv : c.valid = true) (htag : c.tag = tag2 a) (n y : ℕ) :
    (t.setL2 (group2 a) x c).Holds2 n y ↔
      if n / 64 % 4096 = group2 a ∧ y = x then n / 64 = a.toNat / 64 else s.Holds2 n y := by
  rw [Hier.holds2_setL2 t hx]
  split_ifs with he
  · have hg := he.1
    rw [hv, htag, eq_self_iff_true, true_and]
    simp only [group2, tag2] at hg ⊢
    omega
  · rw [Hier.Holds2, Hier.Holds2, ht]

/-- No line is held twice, if that of `a` was in no way before. -/
theorem Lower.uniq_filled {mem : Flat} {s t : Hier} (h : Lower mem s) {a : Word} (hm : s.hit2 a = none)
    (ht : t.l2 = s.l2) {x : ℕ} (hx : x < 16) {c : Cache2} (hv : c.valid = true) (htag : c.tag = tag2 a)
    {n y z : ℕ} (hy : (t.setL2 (group2 a) x c).Holds2 n y) (hz : (t.setL2 (group2 a) x c).Holds2 n z) :
    y = z := by
  rw [Hier.holds2_filled ht hx hv htag] at hy hz
  split_ifs at hy hz with he he'
  · rw [he.2, he'.2]
  · exact absurd hz (Hier.not_holds2_of_miss hm hy z)
  · exact absurd hy (Hier.not_holds2_of_miss hm hz y)
  · exact h.uniq hy hz

/-- A dirty way holds its own line. -/
theorem Lower.holds2_of_dirty {mem : Flat} {s : Hier} (h : Lower mem s) {g x n : ℕ} (hg : g < 4096)
    (hx : x < 16) (hdy : (s.l2 g x).dirty = true) (hn : n / 64 = (s.l2 g x).tag * 4096 + g) :
    n / 64 % 4096 = g ∧ s.Holds2 n x := by
  have hg' : n / 64 % 4096 = g := by omega
  refine ⟨hg', hx, ?_, ?_⟩
  · rw [hg']
    exact Bool.eq_true_of_not_eq_false fun hv => by simp [h.idle hv] at hdy
  · rw [hg']
    omega

/-- **A miss in L2 brings the line in, and the hierarchy then holds `evict`.** -/
theorem Lower.alloc2 {mem : Flat} {s : Hier} (h : Lower mem s) {a : Word}
    (ha : a.toNat < hwMemSize) (hm : s.hit2 a = none) :
    ∃ s', alloc2 junk oob s a = some ((s.victim2 (group2 a)).1, s') ∧
      Lower (evict oob s a mem) s' ∧ s'.Holds2 a.toNat (s.victim2 (group2 a)).1 ∧
      Served2 s a s' := by
  obtain ⟨d, hrun, hok, hd⟩ := alloc2_spec junk oob h.rows ha
  have hx := s.victim2_lt (group2 a)
  set g := group2 a with hg
  set x := (s.victim2 g).1
  set c : Cache2 := ⟨true, false, tag2 a, fun i =>
    if i < 64 then d.flat (a.toNat / 64 * 64 + i) else (s.l2 g x).data i⟩
  set t : Hier := { s with dram := d, rand := (s.victim2 g).2.rand }
  have hholds : ∀ n y, (t.setL2 g x c).Holds2 n y ↔
      if n / 64 % 4096 = g ∧ y = x then n / 64 = a.toNat / 64 else s.Holds2 n y :=
    Hier.holds2_filled (s := s) (t := t) rfl hx rfl rfl
  have hl2 : ∀ {g' y}, ¬ (g' = g ∧ y = x) → (t.setL2 g x c).l2 g' y = s.l2 g' y :=
    fun he => Hier.l2_setL2_of_ne t c he
  refine ⟨t.setL2 g x c, hrun, ⟨hok, ?_, h.uniq_filled hm rfl hx rfl rfl, ?_, ?_, ?_⟩, ?_, rfl, fun hg' => ?_, ?_⟩
  · intro n y hy
    rw [hholds] at hy
    split_ifs at hy
    · simp only [hwMemSize] at ha ⊢
      omega
    · exact h.ram hy
  · intro g' y hv
    by_cases he : g' = g ∧ y = x
    · rw [he.1, he.2, Hier.l2_setL2]
    · rw [hl2 he] at hv ⊢
      exact h.idle hv
  · intro n y hy
    rw [hholds] at hy
    by_cases he : n / 64 % 4096 = g ∧ y = x
    · rw [if_pos he] at hy
      have hn : n < hwMemSize := by
        simp only [hwMemSize] at ha ⊢
        omega
      rw [he.1, he.2, Hier.l2_setL2]
      simp only [c, evict, ← hg]
      rw [if_pos (Nat.mod_lt _ (by norm_num)), ← hy, Nat.div_add_mod', hd n hn]
      cases hdy : (s.l2 g x).dirty with
      | true => simp only [x, hy, and_self, ↓reduceIte]
      | false =>
        simp only [Bool.false_eq_true, false_and, ↓reduceIte]
        exact h.dram hn fun y hy' => absurd hy' (Hier.not_holds2_of_miss hm hy y)
    · rw [if_neg he] at hy
      rw [hl2 he, h.data hy]
      simp only [evict, ← hg]
      split_ifs with hdy h1 h2
      · exact absurd hy (Hier.not_holds2_of_miss hm h1 y)
      · obtain ⟨hg', hxn⟩ := h.holds2_of_dirty (Nat.mod_lt _ (by norm_num)) hx hdy h2
        exact absurd ⟨hg', h.uniq hy hxn⟩ he
      · rfl
      · rfl
  · intro n hn hc
    have hclean : ∀ y, s.Holds2 n y → ¬ (n / 64 % 4096 = g ∧ y = x) →
        (s.l2 (n / 64 % 4096) y).dirty = false := by
      intro y hy he
      have := hc y ((hholds n y).mpr (by rwa [if_neg he]))
      rwa [hl2 he] at this
    change d.flat n = _
    rw [hd n hn]
    simp only [evict, ← hg]
    cases hdy : (s.l2 g x).dirty with
    | true =>
      simp only [x, true_and, ↓reduceIte]
      split_ifs with h1 h2
      · rfl
      · rfl
      · refine h.dram hn fun y hy => hclean y hy fun he => h2 ?_
        have ht := hy.2.2
        rw [he.1, he.2] at ht
        rw [ht]
        have := he.1
        omega
    | false =>
      simp only [Bool.false_eq_true, false_and, ↓reduceIte]
      refine h.dram hn fun y hy => ?_
      by_cases he : n / 64 % 4096 = g ∧ y = x
      · rw [he.1, he.2, hdy]
      · exact hclean y hy he
  · rw [hholds, if_pos ⟨rfl, rfl⟩]
  · funext y
    exact hl2 fun he => hg' he.1
  · rw [Hier.draw2, hm]
    rfl

end Serve

end Nemu
