/-
# The directory of the caches

What the two caches hold, without the bytes: the tags, the dirty bits and what
`rand()` will return. An access does to the directory what it does to the
caches (`dir_cache1Read`, `dir_of_cache1Write`), so the hits and the victims of
a whole run can be told from the addresses alone. Every way is filled on a
miss, so no set ever holds a tag twice (`cacheRun_tagsUnique`).

Key definitions: `Dir`, `Hier.dir`, `Dir.read`, `Dir.write`, `CacheRun`,
`Hier.TagsUnique`.
Key theorems: `dir_line2`, `dir_fill1`, `dir_cache1Read`, `dir_of_cache1Write`,
`cacheRun_tagsUnique`.
-/
import Nemu.Lib.SetAssoc
import Nemu.Memory.FlatMemory
import Nemu.Memory.Lookup

namespace Nemu

open Bytes SetAssoc

/-- What the caches hold, without the bytes. -/
structure Dir where
  l1 : Tags ℕ ℕ ℕ
  l2 : Tags ℕ ℕ ℕ
  dirty : ℕ → ℕ → Bool
  rand : ℕ → ℕ

def ways1 : List ℕ := List.range 8
def ways2 : List ℕ := List.range 16

namespace Dir

/-! ### What an access does -/

def hit1 (d : Dir) (a : Word) : Option ℕ := find ways1 d.l1 (group1 a) (tag1 a)
def hit2 (d : Dir) (a : Word) : Option ℕ := find ways2 d.l2 (group2 a) (tag2 a)

/-- The way of L1 that a miss fills. -/
def way1 (d : Dir) (g : ℕ) : ℕ := (free ways1 d.l1 g).getD (d.rand 0 % 8)

def way2 (d : Dir) (g : ℕ) : ℕ := (free ways2 d.l2 g).getD (d.rand 0 % 16)

/-- After the choice of the way: `rand()` was called if the set is full. -/
def drawn1 (d : Dir) (g : ℕ) : Dir :=
  if (free ways1 d.l1 g).isSome then d else { d with rand := fun n => d.rand (n + 1) }

def drawn2 (d : Dir) (g : ℕ) : Dir :=
  if (free ways2 d.l2 g).isSome then d else { d with rand := fun n => d.rand (n + 1) }

@[simp] theorem l1_drawn1 (d : Dir) (g : ℕ) : (d.drawn1 g).l1 = d.l1 := by
  unfold drawn1
  split <;> rfl

@[simp] theorem l2_drawn1 (d : Dir) (g : ℕ) : (d.drawn1 g).l2 = d.l2 := by
  unfold drawn1
  split <;> rfl

@[simp] theorem dirty_drawn1 (d : Dir) (g : ℕ) : (d.drawn1 g).dirty = d.dirty := by
  unfold drawn1
  split <;> rfl

@[simp] theorem l1_drawn2 (d : Dir) (g : ℕ) : (d.drawn2 g).l1 = d.l1 := by
  unfold drawn2
  split <;> rfl

@[simp] theorem l2_drawn2 (d : Dir) (g : ℕ) : (d.drawn2 g).l2 = d.l2 := by
  unfold drawn2
  split <;> rfl

@[simp] theorem dirty_drawn2 (d : Dir) (g : ℕ) : (d.drawn2 g).dirty = d.dirty := by
  unfold drawn2
  split <;> rfl

/-- L1 fills a way with the line of `a`. -/
def fill1 (d : Dir) (a : Word) : Dir :=
  { d.drawn1 (group1 a) with l1 := install d.l1 (group1 a) (d.way1 (group1 a)) (tag1 a) }

/-- L2 fills a way with the line of `a`; it is clean. -/
def fill2 (d : Dir) (a : Word) : Dir :=
  { d.drawn2 (group2 a) with
    l2 := install d.l2 (group2 a) (d.way2 (group2 a)) (tag2 a)
    dirty := put d.dirty (group2 a) (d.way2 (group2 a)) false }

/-- L2 serves the line of `a`; DRAM has the lines of the memory only. -/
def serve2 (d : Dir) (a : Word) : Option Dir :=
  if (d.hit2 a).isSome then some d
  else if a.toNat < hwMemSize then some (d.fill2 a)
  else none

/-- L1 serves the line of `a`. -/
def serve1 (d : Dir) (a : Word) : Option Dir :=
  if (d.hit1 a).isSome then some d else (d.fill1 a).serve2 a

/-- A write inside a line: a line that L2 holds gets dirty. -/
def writeLine (d : Dir) (a : Word) : Option Dir :=
  match d.hit2 a with
  | some x => some { d with dirty := put d.dirty (group2 a) x true }
  | none => d.serve2 a

/-- `Cache_1_read`. -/
def read (d : Dir) (a : Word) (len : ℕ) : Option Dir := do
  let d ← d.serve1 a
  if 64 < offsetOf a + len then d.serve1 (blockOf a + 64) else return d

/-- `Cache_1_write`. -/
def write (d : Dir) (a : Word) (len : ℕ) : Option Dir := do
  let d ← d.writeLine a
  if 64 < offsetOf a + len then d.writeLine (blockOf a + 64) else return d

/-! ### What is there afterwards -/

variable {d d' : Dir} {a : Word} {len : ℕ}

theorem way2_mem (d : Dir) (g : ℕ) : d.way2 g ∈ ways2 := by
  unfold way2
  cases h : free ways2 d.l2 g with
  | some x => exact List.mem_of_find?_eq_some h
  | none => exact List.mem_range.mpr (Nat.mod_lt _ (by norm_num))

theorem serve2_of_hit (h : (d.hit2 a).isSome = true) : d.serve2 a = some d := if_pos h

/-- A line of the memory is served, in either case. -/
theorem serve2_cases (h : d.serve2 a = some d') :
    ((d.hit2 a).isSome = true ∧ d' = d) ∨ (d.hit2 a = none ∧ a.toNat < hwMemSize ∧ d' = d.fill2 a) := by
  unfold serve2 at h
  split_ifs at h with hh ha
  · exact .inl ⟨hh, (Option.some.inj h).symm⟩
  · exact .inr ⟨by simpa using hh, ha, (Option.some.inj h).symm⟩

/-- The line that was served is there. -/
theorem hit2_of_serve2 (h : d.serve2 a = some d') : (d'.hit2 a).isSome = true := by
  rcases serve2_cases h with ⟨hh, rfl⟩ | ⟨-, -, rfl⟩
  · exact hh
  · by_contra hne
    have hnone : (d.fill2 a).hit2 a = none := by simpa using hne
    exact ne_of_find hnone (d.way2_mem (group2 a)) (put_self _ _)

theorem hit2_of_writeLine (h : d.writeLine a = some d') : (d'.hit2 a).isSome = true := by
  unfold writeLine at h
  split at h
  · next x hx =>
    obtain rfl := Option.some.inj h
    exact Option.isSome_of_mem hx
  · exact hit2_of_serve2 h

/-! ### No tag twice -/

/-- No set of either level holds a tag twice. -/
def Unique (d : Dir) : Prop := SetAssoc.Unique ways1 d.l1 ∧ SetAssoc.Unique ways2 d.l2

theorem Unique.serve2 (h : d.Unique) (hs : d.serve2 a = some d') : d'.Unique := by
  rcases serve2_cases hs with ⟨-, rfl⟩ | ⟨hm, -, rfl⟩
  · exact h
  · refine ⟨?_, h.2.install hm _⟩
    simpa [fill2] using h.1

theorem Unique.serve1 (h : d.Unique) (hs : d.serve1 a = some d') : d'.Unique := by
  unfold Dir.serve1 at hs
  split_ifs at hs with hh
  · obtain rfl := Option.some.inj hs
    exact h
  · have hm : d.hit1 a = none := by simpa using hh
    have hfill : (d.fill1 a).Unique := by
      refine ⟨h.1.install hm _, ?_⟩
      simpa [fill1] using h.2
    exact hfill.serve2 hs

theorem Unique.writeLine (h : d.Unique) (hs : d.writeLine a = some d') : d'.Unique := by
  unfold Dir.writeLine at hs
  split at hs
  · obtain rfl := Option.some.inj hs
    exact h
  · exact h.serve2 hs

theorem Unique.read (h : d.Unique) (hs : d.read a len = some d') : d'.Unique := by
  rcases Option.bind_eq_some_iff.mp hs with ⟨d₁, h₁, h₂⟩
  have hd₁ : d₁.Unique := h.serve1 h₁
  split_ifs at h₂
  · exact hd₁.serve1 h₂
  · obtain rfl := Option.some.inj h₂
    exact hd₁

end Dir

/-! ### The directory of a state -/

/-- The directory of the caches. -/
def Hier.dir (s : Hier) : Dir where
  l1 g x := if (s.l1 g x).valid then some (s.l1 g x).tag else none
  l2 g x := if (s.l2 g x).valid then some (s.l2 g x).tag else none
  dirty g x := (s.l2 g x).dirty
  rand := s.rand

namespace Hier

variable (s : Hier)

theorem some_tag_beq (v : Bool) (t t' : ℕ) : ((if v then some t else none) == some t') = (v && t == t') := by
  cases v <;> simp

theorem hit1_dir (a : Word) : s.dir.hit1 a = s.hit1 a := by
  simp only [Dir.hit1, hit1, find, dir, some_tag_beq, ways1]

theorem hit2_dir (a : Word) : s.dir.hit2 a = s.hit2 a := by
  simp only [Dir.hit2, hit2, find, dir, some_tag_beq, ways2]

theorem none_tag (v : Bool) (t : ℕ) : (if v then some t else none).isNone = !v := by
  cases v <;> simp

theorem free1_dir (g : ℕ) : free ways1 s.dir.l1 g = (List.range 8).find? fun x => !(s.l1 g x).valid := by
  simp only [free, dir, none_tag, ways1]

theorem free2_dir (g : ℕ) : free ways2 s.dir.l2 g = (List.range 16).find? fun x => !(s.l2 g x).valid := by
  simp only [free, dir, none_tag, ways2]

theorem way1_dir (g : ℕ) : s.dir.way1 g = (s.victim1 g).1 := by
  rw [Dir.way1, free1_dir]
  unfold victim1
  split
  · next x h => rw [h]; rfl
  · next h => rw [h]; rfl

theorem way2_dir (g : ℕ) : s.dir.way2 g = (s.victim2 g).1 := by
  rw [Dir.way2, free2_dir]
  unfold victim2
  split
  · next x h => rw [h]; rfl
  · next h => rw [h]; rfl

theorem dir_victim1 (g : ℕ) : (s.victim1 g).2.dir = s.dir.drawn1 g := by
  rw [Dir.drawn1, free1_dir]
  unfold victim1
  split
  · next x h => rw [h]; rfl
  · next h => rw [h]; rfl

theorem dir_victim2 (g : ℕ) : (s.victim2 g).2.dir = s.dir.drawn2 g := by
  rw [Dir.drawn2, free2_dir]
  unfold victim2
  split
  · next x h => rw [h]; rfl
  · next h => rw [h]; rfl

variable {s} {g x : ℕ}

/-- A line of L1 is replaced. -/
theorem dir_setL1 {c : Cache1} (hv : c.valid = true) :
    (s.setL1 g x c).dir = { s.dir with l1 := install s.dir.l1 g x c.tag } := by
  have hl1 : (s.setL1 g x c).dir.l1 = install s.dir.l1 g x c.tag := by
    funext g' x'
    by_cases h : g' = g ∧ x' = x
    · simp [dir, h.1, h.2, install, hv]
    · simp [dir, install, put_of_ne h, l1_setL1_of_ne s c h]
  rw [← hl1]
  rfl

/-- A line of L2 is replaced. -/
theorem dir_setL2 {c : Cache2} (hv : c.valid = true) :
    (s.setL2 g x c).dir =
      { s.dir with l2 := install s.dir.l2 g x c.tag, dirty := put s.dir.dirty g x c.dirty } := by
  have hl2 : (s.setL2 g x c).dir.l2 = install s.dir.l2 g x c.tag := by
    funext g' x'
    by_cases h : g' = g ∧ x' = x
    · simp [dir, h.1, h.2, install, hv]
    · simp [dir, install, put_of_ne h, l2_setL2_of_ne s c h]
  have hdirty : (s.setL2 g x c).dir.dirty = put s.dir.dirty g x c.dirty := by
    funext g' x'
    by_cases h : g' = g ∧ x' = x
    · simp [dir, h.1, h.2]
    · simp [dir, put_of_ne h, l2_setL2_of_ne s c h]
  rw [← hl2, ← hdirty]
  rfl

/-- Only the bytes of a line of L1 change. -/
theorem dir_setL1_data (f : ℕ → Byte) : (s.setL1 g x { s.l1 g x with data := f }).dir = s.dir := by
  have hl1 : (s.setL1 g x { s.l1 g x with data := f }).dir.l1 = s.dir.l1 := by
    funext g' x'
    by_cases h : g' = g ∧ x' = x
    · simp [dir, h.1, h.2]
    · simp [dir, l1_setL1_of_ne s _ h]
  calc
    (s.setL1 g x { s.l1 g x with data := f }).dir =
        { s.dir with l1 := (s.setL1 g x { s.l1 g x with data := f }).dir.l1 } := rfl
    _ = s.dir := by rw [hl1]

end Hier

/-! ### DRAM has the lines of the memory only -/

section Ram

variable (junk : ℕ → Byte) (oob : ℕ → ℕ → Byte)

theorem dramRead_none (d : Dram) {a : Word} (ha : ¬ a.toNat < hwMemSize) (len : ℕ) :
    dramRead junk d a len = none := by
  simp [dramRead, ddr3Read, ha]

theorem dramWrite_none (d : Dram) {a : Word} (ha : ¬ a.toNat < hwMemSize) (len : ℕ) (data : Word) :
    dramWrite junk d a len data = none := by
  simp [dramWrite, ddr3Write, ha]

/-- A write inside a line of the memory returns. -/
theorem dramWrite_isSome (d : Dram) {a : Word} {len : ℕ} (hlen : offsetOf a + len ≤ 64)
    (ha : a.toNat < hwMemSize) (data : Word) : (dramWrite junk d a len data).isSome = true := by
  by_cases hx : a.toNat % 8 + len > 8
  · -- the second burst is in the same line
    have ha8 : (a + 8).toNat < hwMemSize := by
      have h8 : (a + 8).toNat = a.toNat + 8 := by
        apply toNat_add_ofNat (i := 8)
        simp only [hwMemSize] at ha
        omega
      simp only [offsetOf] at hlen
      simp only [hwMemSize] at ha ⊢
      omega
    unfold dramWrite ddr3Write
    simp only [if_pos ha, if_pos ha8, if_pos hx, Option.bind_eq_bind, Option.bind_some, Option.isSome_some]
  · simp [dramWrite, ddr3Write, ha, hx]

variable {junk oob}

theorem block_not_lt {a : Word} (ha : ¬ a.toNat < hwMemSize) : ¬ (blockOf a).toNat < hwMemSize := by
  rw [toNat_blockOf]
  simp only [hwMemSize] at ha ⊢
  omega

theorem fill2_none {s : Hier} {a : Word} (ha : ¬ a.toNat < hwMemSize) (g x n : ℕ) :
    fill2 junk s (blockOf a) g x (n + 1) = none := by
  induction n with
  | zero => simp [fill2, dramRead_none junk _ (block_not_lt ha)]
  | succ n ih =>
    rw [fill2, ih]
    rfl

theorem alloc2_none {s : Hier} {a : Word} (ha : ¬ a.toNat < hwMemSize) : alloc2 junk oob s a = none := by
  rw [alloc2_eq]
  simp [fill2_none ha]

end Ram

/-! ### The caches and their directory -/

section Simulation

variable {junk : ℕ → Byte} {oob : ℕ → ℕ → Byte} {s s' : Hier} {a : Word} {len : ℕ} {data : Word}

variable (junk oob) in
/-- **L2 serves a line** as its directory says. -/
theorem dir_line2 (s : Hier) (a : Word) :
    (line2 junk oob s a).map (fun r => r.2.dir) = s.dir.serve2 a := by
  unfold Dir.serve2
  rw [Hier.hit2_dir, line2]
  cases hh : s.hit2 a with
  | some x => rfl
  | none =>
    by_cases ha : a.toNat < hwMemSize
    · obtain ⟨d, c, hrun, hv, ht, hd, -⟩ := alloc2_view junk oob ha hh
      have hdraw : s.dir.drawn2 (group2 a) =
          ({ s with dram := d, rand := (s.victim2 (group2 a)).2.rand } : Hier).dir := by
        rw [← Hier.dir_victim2, Hier.victim2_snd]
        rfl
      rw [hrun, Option.map_some, Hier.dir_setL2 hv, ht, hd, if_pos ha, Dir.fill2, Hier.way2_dir, hdraw]
      rfl
    · simp [alloc2_none ha, ha]

/-- The line that L2 served is found. -/
theorem hit2_of_line2 {y : ℕ} (h : line2 junk oob s a = some (y, s')) : s'.hit2 a = some y := by
  cases hh : s.hit2 a with
  | some x =>
    rw [line2, hh] at h
    obtain ⟨rfl, rfl⟩ : x = y ∧ s = s' := by simpa using h
    exact hh
  | none =>
    by_cases ha : a.toNat < hwMemSize
    · obtain ⟨x, t, hl, -, hx, -⟩ := line2_served junk oob (s := s) ha
      obtain ⟨rfl, rfl⟩ : x = y ∧ t = s' := by simpa [hl] using h
      exact hx
    · rw [line2, hh] at h
      simp [alloc2_none ha] at h

/-- A state that L2 left has the directory that was to be expected. -/
theorem dir_of_line2 {y : ℕ} (h : line2 junk oob s a = some (y, s')) : s.dir.serve2 a = some s'.dir := by
  rw [← dir_line2 junk oob, h]
  rfl

theorem cache2Read_none (h : line2 junk oob s a = none) : cache2Read junk oob s a len = none := by
  simp [cache2Read, h]

variable (junk oob) in
/-- **Filling a line of L1** is one service of L2. -/
theorem dir_fill1 (s : Hier) (a : Word) (g x : ℕ) {n : ℕ} (hn : n < 64) :
    (fill1 junk oob s (blockOf a) g x (n + 1)).map Hier.dir = s.dir.serve2 a := by
  cases hl : line2 junk oob s a with
  | some r =>
    rcases r with ⟨y, s'⟩
    rw [fill1_served hl (hit2_of_line2 hl) g x n hn, Option.map_some, Hier.dir_setL1_data, dir_of_line2 hl]
  | none =>
    have hnone : fill1 junk oob s (blockOf a) g x (n + 1) = none := by
      clear hn
      induction n with
      | zero =>
        have hblock : line2 junk oob s (blockOf a + BitVec.ofNat 32 0) = none := by
          rw [← hl]
          apply line2_line
          rw [toNat_block_add a (by norm_num)]
          omega
        simp only [fill1, Option.bind_eq_bind, Option.bind_some, cache2Read_none hblock, Option.bind_none]
      | succ n ih =>
        rw [fill1, ih]
        rfl
    rw [hnone, ← dir_line2 junk oob, hl]
    rfl

/-- A read miss in L1 fills the way that was chosen. -/
theorem line1_miss (hm : s.hit1 a = none) : line1 junk oob s a =
    (fill1 junk oob (s.claim1 a) (blockOf a) (group1 a) (s.victim1 (group1 a)).1 64).bind fun t =>
      some ((s.victim1 (group1 a)).1, t) := by
  have hl1 : (s.victim1 (group1 a)).2.l1 = s.l1 := by rw [Hier.victim1_snd]
  unfold line1 Hier.claim1
  rw [hm, ← hl1]
  rfl

theorem dir_claim1 (s : Hier) (a : Word) : (s.claim1 a).dir = s.dir.fill1 a := by
  rw [Hier.claim1, Hier.dir_setL1 rfl, Hier.dir_victim1, Dir.fill1, Hier.way1_dir, Dir.l1_drawn1]

variable (junk oob) in
/-- **L1 serves a line** as its directory says. -/
theorem dir_line1 (s : Hier) (a : Word) :
    (line1 junk oob s a).map (fun r => r.2.dir) = s.dir.serve1 a := by
  unfold Dir.serve1
  rw [Hier.hit1_dir]
  cases hh : s.hit1 a with
  | some x =>
    rw [line1, hh]
    rfl
  | none =>
    have hfill := dir_fill1 junk oob (s.claim1 a) a (group1 a) (s.victim1 (group1 a)).1
      (n := 63) (by norm_num)
    rw [Option.map_eq_bind, dir_claim1] at hfill
    rw [line1_miss hh, Option.map_bind]
    simpa [Function.comp_def] using hfill

theorem dir_of_line1 {x : ℕ} (h : line1 junk oob s a = some (x, s')) : s.dir.serve1 a = some s'.dir := by
  rw [← dir_line1 junk oob, h]
  rfl

variable (junk oob) in
/-- **A read** does to the directory what it does to the caches. -/
theorem dir_cache1Read (s : Hier) (a : Word) (len : ℕ) :
    (cache1Read junk oob s a len).map (fun r => r.2.dir) = s.dir.read a len := by
  unfold cache1Read Dir.read
  rw [← dir_line1 junk oob]
  cases line1 junk oob s a with
  | none => rfl
  | some r =>
    rcases r with ⟨x, t⟩
    simp only [Option.bind_eq_bind, Option.bind_some, Option.map_some, gt_iff_lt]
    split
    · rw [← dir_line1 junk oob]
      cases line1 junk oob t (blockOf a + 64) <;> rfl
    · rfl

theorem dir_of_cache1Read {v : Word} (h : cache1Read junk oob s a len = some (v, s')) :
    s.dir.read a len = some s'.dir := by
  rw [← dir_cache1Read junk oob, h]
  rfl

/-- A write of a line that L2 holds. -/
theorem dir_write_hit {x : ℕ} (hh : s.hit2 a = some x) :
    (cache2WriteLine junk oob s a len data).map Hier.dir =
      some { s.dir with dirty := put s.dir.dirty (group2 a) x true } := by
  obtain ⟨-, hv, ht⟩ := Hier.holds2_of_hit2 hh
  have hv' : (s.l2 (group2 a) x).valid = true := hv
  have hsame : install s.dir.l2 (group2 a) x (s.l2 (group2 a) x).tag = s.dir.l2 := by
    apply put_eq_self
    simp [Hier.dir, hv']
  rw [cache2WriteLine, hh, Option.map_some, Hier.dir_setL2 (by exact hv')]
  simp only [hsame]

/-- **A write inside a line** of L2 does to the directory what it does to the caches. -/
theorem dir_of_cache2WriteLine (h : cache2WriteLine junk oob s a len data = some s') :
    s.dir.writeLine a = some s'.dir := by
  unfold Dir.writeLine
  rw [Hier.hit2_dir]
  cases hh : s.hit2 a with
  | some x =>
    have hdir : (cache2WriteLine junk oob s a len data).map Hier.dir = _ := dir_write_hit hh
    rw [h] at hdir
    exact hdir.symm
  | none =>
    rw [cache2WriteLine, hh] at h
    simp only [Option.bind_eq_bind, Option.bind_eq_some_iff] at h
    obtain ⟨d, -, ⟨x, t⟩, halloc, ht⟩ := h
    obtain rfl : t = s' := Option.some.inj ht
    have hl : line2 junk oob { s with dram := d } a = some (x, t) := by
      have hh' : ({ s with dram := d } : Hier).hit2 a = none := hh
      rw [line2, hh']
      exact halloc
    have hdir : ({ s with dram := d } : Hier).dir.serve2 a = some t.dir := dir_of_line2 hl
    exact hdir

variable (junk oob) in
/-- It returns, where L2 has the line or DRAM has it. -/
theorem cache2WriteLine_isSome (hlen : offsetOf a + len ≤ 64)
    (h : (s.hit2 a).isSome = true ∨ a.toNat < hwMemSize) (data : Word) :
    (cache2WriteLine junk oob s a len data).isSome = true := by
  cases hh : s.hit2 a with
  | some x =>
    rw [cache2WriteLine, hh]
    rfl
  | none =>
    have ha : a.toNat < hwMemSize := by simpa [hh] using h
    obtain ⟨d, hd⟩ := Option.isSome_iff_exists.mp (dramWrite_isSome junk s.dram hlen ha data)
    have hh' : ({ s with dram := d } : Hier).hit2 a = none := hh
    obtain ⟨d', c, halloc, -⟩ := alloc2_view junk oob ha hh'
    rw [cache2WriteLine, hh]
    simp [hd, halloc]

/-- The second line is written from its start. -/
theorem offsetOf_next (a : Word) : offsetOf (blockOf a + 64) = 0 := by
  have h64 : (64 : Word).toNat = 64 := rfl
  rw [offsetOf, BitVec.toNat_add, toNat_blockOf, h64]
  omega

theorem cache2Write_line (hlen : offsetOf a + len ≤ 64) (data : Word) :
    cache2Write junk oob s a len data = cache2WriteLine junk oob s a len data := by
  rw [cache2Write, if_neg (by omega)]

/-- A line of L1 that is written is read again from L2, which has it. -/
theorem dir_refill (hh : (s.hit2 a).isSome = true) (g x : ℕ) :
    (fill1 junk oob s (blockOf a) g x 64).map Hier.dir = some s.dir := by
  rw [← Hier.hit2_dir] at hh
  rw [← Dir.serve2_of_hit hh]
  exact dir_fill1 _ _ s a g x (by norm_num)

/-- **A write inside a line** does to the directory what it does to the caches. -/
theorem dir_of_cache1WriteLine (hlen : offsetOf a + len ≤ 64)
    (h : cache1WriteLine junk oob s a len data = some s') : s.dir.writeLine a = some s'.dir := by
  rcases Option.bind_eq_some_iff.mp h with ⟨t, hw, h⟩
  rw [cache2Write_line hlen] at hw
  have hdir : s.dir.writeLine a = some t.dir := dir_of_cache2WriteLine hw
  have hhit : (t.hit2 a).isSome = true := by
    rw [← Hier.hit2_dir]
    exact Dir.hit2_of_writeLine hdir
  cases hh : s.hit1 a with
  | none =>
    rw [hh] at h
    obtain rfl := Option.some.inj h
    exact hdir
  | some x =>
    rw [hh] at h
    have hfill : (fill1 junk oob t (blockOf a) (group1 a) x 64).map Hier.dir = some t.dir :=
      dir_refill hhit (group1 a) x
    rw [show fill1 junk oob t (blockOf a) (group1 a) x 64 = some s' from h] at hfill
    rw [hdir, ← Option.some.inj hfill]

variable (junk oob) in
theorem cache1WriteLine_isSome (hlen : offsetOf a + len ≤ 64)
    (h : (s.hit2 a).isSome = true ∨ a.toNat < hwMemSize) (data : Word) :
    (cache1WriteLine junk oob s a len data).isSome = true := by
  obtain ⟨t, hw⟩ := Option.isSome_iff_exists.mp (cache2WriteLine_isSome junk oob hlen h data)
  have hhit : (t.hit2 a).isSome = true := by
    rw [← Hier.hit2_dir]
    exact Dir.hit2_of_writeLine (dir_of_cache2WriteLine hw)
  rw [cache1WriteLine, cache2Write_line hlen, hw]
  cases hh : s.hit1 a with
  | none => rfl
  | some x =>
    have hfill : (fill1 junk oob t (blockOf a) (group1 a) x 64).map Hier.dir = some t.dir :=
      dir_refill hhit (group1 a) x
    have hsome : ((fill1 junk oob t (blockOf a) (group1 a) x 64).map Hier.dir).isSome = true := by
      rw [hfill]
      rfl
    simpa using hsome

/-- **A write** does to the directory what it does to the caches. -/
theorem dir_of_cache1Write (h1 : 1 ≤ len) (h4 : len ≤ 4)
    (h : cache1Write junk oob s a len data = some s') : s.dir.write a len = some s'.dir := by
  unfold Dir.write
  by_cases hx : 64 < offsetOf a + len
  · rw [cache1Write, if_pos (by omega)] at h
    rcases Option.bind_eq_some_iff.mp h with ⟨t, hw, h⟩
    rw [add_front] at h
    have hfront : s.dir.writeLine a = some t.dir := by
      apply dir_of_cache1WriteLine _ hw
      simp only [offsetOf]
      omega
    have hback : t.dir.writeLine (blockOf a + 64) = some s'.dir := by
      apply dir_of_cache1WriteLine _ h
      rw [offsetOf_next]
      omega
    rw [hfront, Option.bind_eq_bind, Option.bind_some, if_pos hx, hback]
  · rw [cache1Write, if_neg (by omega)] at h
    have hline : s.dir.writeLine a = some s'.dir := dir_of_cache1WriteLine (by omega) h
    simp [hline, hx]

end Simulation

/-! ### Runs -/

/-- A call of `Cache_1_read` or `Cache_1_write`; the state when it returns. -/
def cacheCall (junk : ℕ → Byte) (oob : ℕ → ℕ → Byte) (s : Hier) : MemOp → Option Hier
  | .read a len => (cache1Read junk oob s a len).map Prod.snd
  | .write a len data => cache1Write junk oob s a len data

/-- The states that calls reach after `init_cache`. What the uninitialised bytes and those behind
L1 are may differ from call to call. -/
inductive CacheRun : Hier → Prop where
  | init (s : Hier) : CacheRun (initCache s)
  | call {s s' : Hier} {op : MemOp} (junk : ℕ → Byte) (oob : ℕ → ℕ → Byte) (h : CacheRun s)
      (hcall : cacheCall junk oob s op = some s') : CacheRun s'

/-- No two valid ways of a set have the same tag, in either level. -/
structure Hier.TagsUnique (s : Hier) : Prop where
  l1 : ∀ g x y, x < 8 → y < 8 → (s.l1 g x).valid = true → (s.l1 g y).valid = true →
    (s.l1 g x).tag = (s.l1 g y).tag → x = y
  l2 : ∀ g x y, x < 16 → y < 16 → (s.l2 g x).valid = true → (s.l2 g y).valid = true →
    (s.l2 g x).tag = (s.l2 g y).tag → x = y

section Unique

variable {junk : ℕ → Byte} {oob : ℕ → ℕ → Byte} {s s' : Hier} {a : Word} {len : ℕ} {data : Word}

theorem Hier.mem_ways1 {x : ℕ} : x ∈ ways1 ↔ x < 8 := List.mem_range

theorem Hier.mem_ways2 {x : ℕ} : x ∈ ways2 ↔ x < 16 := List.mem_range

theorem Hier.l1_dir_eq_some {g x t : ℕ} :
    s.dir.l1 g x = some t ↔ (s.l1 g x).valid = true ∧ (s.l1 g x).tag = t := by simp [Hier.dir]

theorem Hier.l2_dir_eq_some {g x t : ℕ} :
    s.dir.l2 g x = some t ↔ (s.l2 g x).valid = true ∧ (s.l2 g x).tag = t := by simp [Hier.dir]

theorem Dir.Unique.tagsUnique (h : s.dir.Unique) : s.TagsUnique where
  l1 g x y hx hy hvx hvy ht :=
    h.1 g _ x (Hier.mem_ways1.mpr hx) y (Hier.mem_ways1.mpr hy) (Hier.l1_dir_eq_some.mpr ⟨hvx, rfl⟩)
      (Hier.l1_dir_eq_some.mpr ⟨hvy, ht.symm⟩)
  l2 g x y hx hy hvx hvy ht :=
    h.2 g _ x (Hier.mem_ways2.mpr hx) y (Hier.mem_ways2.mpr hy) (Hier.l2_dir_eq_some.mpr ⟨hvx, rfl⟩)
      (Hier.l2_dir_eq_some.mpr ⟨hvy, ht.symm⟩)

/-- The lookup in L1 finds the way that holds the line. -/
theorem Dir.Unique.hit1_iff (h : s.dir.Unique) (a : Word) (x : ℕ) : s.hit1 a = some x ↔ s.Holds1 a.toNat x := by
  rw [← Hier.hit1_dir, Dir.hit1, h.1.find_eq_some_iff, Hier.mem_ways1, Hier.l1_dir_eq_some]
  rfl

theorem Dir.Unique.hit2_iff (h : s.dir.Unique) (a : Word) (x : ℕ) : s.hit2 a = some x ↔ s.Holds2 a.toNat x := by
  rw [← Hier.hit2_dir, Dir.hit2, h.2.find_eq_some_iff, Hier.mem_ways2, Hier.l2_dir_eq_some]
  rfl

theorem unique_initCache (s : Hier) : (initCache s).dir.Unique := ⟨unique_empty, unique_empty⟩

theorem unique_cache2Write (h : s.dir.Unique) (hw : cache2Write junk oob s a len data = some s') :
    s'.dir.Unique := by
  unfold cache2Write at hw
  split_ifs at hw
  · rcases Option.bind_eq_some_iff.mp hw with ⟨t, ht, hw⟩
    have hfront : t.dir.Unique := h.writeLine (dir_of_cache2WriteLine ht)
    exact hfront.writeLine (dir_of_cache2WriteLine hw)
  · exact h.writeLine (dir_of_cache2WriteLine hw)

theorem unique_cache1WriteLine (h : s.dir.Unique) (hw : cache1WriteLine junk oob s a len data = some s') :
    s'.dir.Unique := by
  rcases Option.bind_eq_some_iff.mp hw with ⟨t, ht, hw⟩
  have hlower : t.dir.Unique := unique_cache2Write h ht
  split at hw
  · next x _ =>
    have hfill := dir_fill1 junk oob t a (group1 a) x (n := 63) (by norm_num)
    rw [hw] at hfill
    exact hlower.serve2 hfill.symm
  · obtain rfl := Option.some.inj hw
    exact hlower

/-- **One call keeps the tags apart.** -/
theorem unique_cacheCall {op : MemOp} (h : s.dir.Unique) (hcall : cacheCall junk oob s op = some s') :
    s'.dir.Unique := by
  cases op with
  | read a len =>
    rcases Option.map_eq_some_iff.mp hcall with ⟨⟨v, t⟩, hr, rfl⟩
    exact h.read (dir_of_cache1Read hr)
  | write a len data =>
    unfold cacheCall cache1Write at hcall
    dsimp only at hcall
    split_ifs at hcall
    · rcases Option.bind_eq_some_iff.mp hcall with ⟨t, ht, hw⟩
      exact unique_cache1WriteLine (unique_cache1WriteLine h ht) hw
    · exact unique_cache1WriteLine h hcall

/-- Every run keeps the tags apart. -/
theorem CacheRun.unique (h : CacheRun s) : s.dir.Unique := by
  induction h with
  | init s => exact unique_initCache s
  | call junk oob _ hcall ih => exact unique_cacheCall ih hcall

/-- **Cache tags are unique** in every state that calls reach, and a lookup finds the only way that
holds the line. -/
theorem cacheRun_tagsUnique (h : CacheRun s) :
    s.TagsUnique ∧ (∀ a x, s.hit1 a = some x ↔ s.Holds1 a.toNat x) ∧
      ∀ a x, s.hit2 a = some x ↔ s.Holds2 a.toNat x :=
  ⟨h.unique.tagsUnique, h.unique.hit1_iff, h.unique.hit2_iff⟩

end Unique

/-- Inside one line of the memory. -/
def MemOp.InLine : MemOp → Prop
  | .read a len => offsetOf a + len ≤ 64 ∧ a.toNat < hwMemSize
  | .write a len _ => offsetOf a + len ≤ 64 ∧ a.toNat < hwMemSize

/-- Such a call returns. -/
theorem cacheCall_isSome (junk : ℕ → Byte) (oob : ℕ → ℕ → Byte) (s : Hier) {op : MemOp} (h : op.InLine) :
    (cacheCall junk oob s op).isSome := by
  cases op with
  | read a len =>
    have hread : (s.dir.read a len).isSome := by
      have hlow : ∀ d : Dir, (d.serve2 a).isSome := fun d => by
        unfold Dir.serve2
        rw [if_pos h.2]
        split_ifs <;> rfl
      have hserve : (s.dir.serve1 a).isSome := by
        unfold Dir.serve1
        split_ifs
        · rfl
        · exact hlow _
      obtain ⟨d, hd⟩ := Option.isSome_iff_exists.mp hserve
      rw [Dir.read, hd, Option.bind_eq_bind, Option.bind_some, if_neg h.1.not_gt]
      rfl
    rw [← dir_cache1Read junk oob, Option.isSome_map] at hread
    rwa [cacheCall, Option.isSome_map]
  | write a len data =>
    have hin : ¬ offsetOf a + len - 1 > 63 := by
      have := h.1
      omega
    rw [cacheCall, cache1Write, if_neg hin]
    exact cache1WriteLine_isSome junk oob h.1 (.inr h.2) data

theorem CacheRun.calls {junk : ℕ → Byte} {oob : ℕ → ℕ → Byte} : ∀ {ops : List MemOp} {s : Hier}, CacheRun s →
    (∀ op ∈ ops, op.InLine) → ∃ s', ops.foldlM (cacheCall junk oob) s = some s' ∧ CacheRun s'
  | [], s, h, _ => ⟨s, rfl, h⟩
  | op :: ops, s, h, hin => by
    rw [List.forall_mem_cons] at hin
    obtain ⟨t, ht⟩ := Option.isSome_iff_exists.mp (cacheCall_isSome junk oob s hin.1)
    obtain ⟨s', hs', hrun⟩ := CacheRun.calls (.call junk oob h ht) hin.2
    exact ⟨s', by rw [List.foldlM_cons, ht, Option.bind_eq_bind, Option.bind_some, hs'], hrun⟩

/-- A write of line 0 of set 1 of L2, reads of that line and of sixteen others, and a write of line 0, which is not
there any more. -/
def crowding : List MemOp :=
  .write (conflict 0) 4 1 :: (List.range 17).map (fun k => .read (conflict k) 4) ++ [.write (conflict 0) 4 2]

theorem cacheRun_tagsUnique_crowding :
    ∃ s, crowding.foldlM (cacheCall (fun _ => 0) fun _ _ => 0) (initCache blankMemory.cache) = some s ∧
      s.TagsUnique ∧ (∀ a x, s.hit1 a = some x ↔ s.Holds1 a.toNat x) ∧ ∀ a x, s.hit2 a = some x ↔ s.Holds2 a.toNat x := by
  have hin : ∀ op ∈ crowding, op.InLine := by
    simp only [crowding, List.cons_append, List.forall_mem_cons, List.forall_mem_append, List.forall_mem_map, List.mem_range]
    exact ⟨conflict_inRam (by norm_num), fun k hk => conflict_inRam (by omega), conflict_inRam (by norm_num), nofun⟩
  obtain ⟨s, hs, hrun⟩ := (CacheRun.init blankMemory.cache).calls hin
  exact ⟨s, hs, cacheRun_tagsUnique hrun⟩

end Nemu
