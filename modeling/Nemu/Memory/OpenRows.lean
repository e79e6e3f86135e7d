/-
# Which copy of a byte is found

What a read of one byte finds is decided by the directory of the caches and by
the rows that are open: a copy in L1, in L2, what is put in the place of a dirty
line, the row buffer, and only then the array. Directory and open rows (`Layers`)
change under a read in a way that no byte has a part in.

Key definitions: `Dram.openRows`, `Layers`, `Layers.read`, `Layers.Bare`.
Key theorems: `openRows_line1`, `layers_cache1Read`, `bare_iff`.
-/
import Nemu.Memory.Directory

namespace Nemu

open Bytes

/-! ### The open rows -/

/-- The row that the buffer holds. -/
def RB.row (rb : RB) : Option ℕ := if rb.valid then some rb.rowIdx else none

/-- The row that is open in each bank. -/
def Dram.openRows (d : Dram) (rank bank : ℕ) : Option ℕ := (d.rowbufs rank bank).row

/-- The row of `a` is opened. -/
def openRow (rows : ℕ → ℕ → Option ℕ) (a : Word) (rank bank : ℕ) : Option ℕ :=
  if rank = rankOf a ∧ bank = bankOf a then some (rowOf a) else rows rank bank

theorem open_iff (d : Dram) (a : Word) : d.Open a ↔ d.openRows (rankOf a) (bankOf a) = some (rowOf a) := by
  unfold Dram.Open Dram.openRows RB.row
  cases (d.rowbufs (rankOf a) (bankOf a)).valid <;> simp

theorem SameRow.openRow {a b : Word} (h : SameRow a b) (rows : ℕ → ℕ → Option ℕ) :
    openRow rows a = openRow rows b := by
  obtain ⟨h1, h2, h3⟩ := h
  unfold Nemu.openRow
  rw [h1, h2, h3]

@[simp] theorem openRow_openRow (rows : ℕ → ℕ → Option ℕ) (a : Word) :
    openRow (openRow rows a) a = openRow rows a := by
  funext r b
  unfold openRow
  split <;> rfl

theorem openRows_loadRow (d : Dram) (a : Word) :
    (d.loadRow (rankOf a) (bankOf a) (rowOf a)).openRows = openRow d.openRows a := by
  funext r b
  unfold openRow
  by_cases ho : d.Open a
  · have hload : d.loadRow (rankOf a) (bankOf a) (rowOf a) = d := if_pos ho
    rw [hload]
    split_ifs with hrb
    · rw [hrb.1, hrb.2]
      exact (open_iff d a).mp ho
    · rfl
  · rw [Dram.loadRow, if_neg (by exact ho)]
    unfold Dram.openRows Dram.setRowbuf
    dsimp only
    rw [apply_ite RB.row]
    rfl

/-- What is open afterwards does not depend on the bytes of the row. -/
theorem openRows_storeRow (d : Dram) (r b w : ℕ) (buf buf' : ℕ → Byte) :
    ((d.setRowbuf r b { d.rowbufs r b with buf := buf }).storeRow r b w buf').openRows = d.openRows := by
  funext r' b'
  unfold Dram.openRows Dram.storeRow Dram.setRowbuf
  dsimp only
  rw [apply_ite RB.row]
  split_ifs with h
  · rw [h.1, h.2]
    rfl
  · rfl

section Access

variable {junk : ℕ → Byte} {oob : ℕ → ℕ → Byte} {a b v : Word}

/-- A byte is read in its row. -/
theorem openRows_dramRead {d d' : Dram} (h : dramRead junk d b 1 = some (v, d')) (hrow : SameRow b a) :
    d'.openRows = openRow d.openRows a := by
  have hoff : ¬ b.toNat % 8 + 1 > 8 := by omega
  have hb : b.toNat < hwMemSize := by
    by_contra hb
    rw [dramRead_none junk d hb] at h
    exact nomatch h
  have hrun := dramRead.eq_1 junk d b 1
  simp only [ddr3Read, if_pos hb, hoff, Option.bind_eq_bind, Option.bind_some, ↓reduceIte] at hrun
  obtain ⟨-, rfl⟩ := Prod.mk.inj (Option.some.inj (hrun.symm.trans h))
  rw [openRows_loadRow, (sameRow_burst b).openRow, hrow.openRow]

/-- A byte is written in its row. -/
theorem openRows_dramWrite {d d' : Dram} {data : Word} (h : dramWrite junk d b 1 data = some d')
    (hrow : SameRow b a) : d'.openRows = openRow d.openRows a := by
  have hoff : ¬ b.toNat % 8 + 1 > 8 := by omega
  have hb : b.toNat < hwMemSize := by
    by_contra hb
    rw [dramWrite_none junk d hb] at h
    exact nomatch h
  have hrun := dramWrite.eq_1 junk d b 1 data
  simp only [ddr3Write, if_pos hb, hoff, Option.bind_eq_bind, Option.bind_some, ↓reduceIte] at hrun
  obtain rfl := Option.some.inj (hrun.symm.trans h)
  rw [openRows_storeRow, openRows_loadRow, (sameRow_burst b).openRow, hrow.openRow]

theorem sameRow_of_block (a : Word) {j : ℕ} (hj : j < 64) : SameRow (blockOf a + BitVec.ofNat 32 j) a := by
  have h := toNat_block_add a hj
  exact sameRow_line (by omega)

/-! ### A line is served -/

variable {s s' : Hier} {g x y : ℕ}

theorem openRows_writeBack2 : ∀ {n : ℕ} {s' : Hier}, n ≤ 64 →
    writeBack2 junk oob s (blockOf a) g x n = some s' →
      s'.dram.openRows = if n = 0 then s.dram.openRows else openRow s.dram.openRows a
  | 0, s', _, h => by
    obtain rfl := Option.some.inj h
    rfl
  | n + 1, s', hn, h => by
    obtain ⟨t, ht, h⟩ := Option.bind_eq_some_iff.mp h
    obtain ⟨d, hd, h⟩ := Option.bind_eq_some_iff.mp h
    obtain rfl := Option.some.inj h
    have ih := openRows_writeBack2 (by omega) ht
    show d.openRows = _
    rw [openRows_dramWrite hd (sameRow_of_block a (by omega)), ih, if_neg (Nat.succ_ne_zero n)]
    split_ifs <;> simp

theorem openRows_fill2 : ∀ {n : ℕ} {s' : Hier}, n ≤ 64 → fill2 junk s (blockOf a) g x n = some s' →
    s'.dram.openRows = if n = 0 then s.dram.openRows else openRow s.dram.openRows a
  | 0, s', _, h => by
    obtain rfl := Option.some.inj h
    rfl
  | n + 1, s', hn, h => by
    obtain ⟨t, ht, h⟩ := Option.bind_eq_some_iff.mp h
    obtain ⟨⟨v, d⟩, hd, h⟩ := Option.bind_eq_some_iff.mp h
    obtain rfl := Option.some.inj h
    have ih := openRows_fill2 (by omega) ht
    show d.openRows = _
    rw [openRows_dramRead hd (sameRow_of_block a (by omega)), ih, if_neg (Nat.succ_ne_zero n)]
    split_ifs <;> simp

/-- A miss in L2 opens the row of its line. -/
theorem openRows_alloc2 (h : alloc2 junk oob s a = some (y, s')) :
    s'.dram.openRows = openRow s.dram.openRows a := by
  rw [alloc2_eq] at h
  obtain ⟨t, ht, h⟩ := Option.bind_eq_some_iff.mp h
  obtain ⟨u, hu, h⟩ := Option.bind_eq_some_iff.mp h
  obtain ⟨-, rfl⟩ := Prod.mk.inj (Option.some.inj h)
  have hvic : (s.victim2 (group2 a)).2.dram = s.dram := by rw [Hier.victim2_snd]
  have hfill := openRows_fill2 le_rfl hu
  rw [if_neg (by norm_num)] at hfill
  rw [hfill]
  change openRow t.dram.openRows a = _
  split_ifs at ht
  · rw [openRows_writeBack2 le_rfl ht, if_neg (by norm_num), hvic, openRow_openRow]
  · rw [← Option.some.inj ht, hvic]

theorem openRows_line2 (h : line2 junk oob s a = some (y, s')) : s'.dram.openRows =
    if s.hit2 a = none then openRow s.dram.openRows a else s.dram.openRows := by
  unfold line2 at h
  cases hh : s.hit2 a with
  | some x =>
    rw [hh] at h
    obtain ⟨-, rfl⟩ := Prod.mk.inj (Option.some.inj h)
    rfl
  | none =>
    rw [hh] at h
    rw [if_pos rfl, openRows_alloc2 h]

/-- A read that misses both levels opens the row of its line. -/
theorem openRows_line1 (h : line1 junk oob s a = some (x, s')) : s'.dram.openRows =
    if s.hit1 a = none ∧ s.hit2 a = none then openRow s.dram.openRows a else s.dram.openRows := by
  cases hh : s.hit1 a with
  | some z =>
    rw [line1, hh] at h
    obtain ⟨-, rfl⟩ := Prod.mk.inj (Option.some.inj h)
    rw [if_neg fun hc => Option.some_ne_none z hc.1]
  | none =>
    rw [line1_miss hh] at h
    obtain ⟨t, ht, h⟩ := Option.bind_eq_some_iff.mp h
    obtain ⟨-, rfl⟩ := Prod.mk.inj (Option.some.inj h)
    -- the line is filled by one service of L2
    have hdir := dir_fill1 junk oob (s.claim1 a) a (group1 a) (s.victim1 (group1 a)).1 (n := 63) (by norm_num)
    rw [← dir_line2 junk oob, ht] at hdir
    cases hl : line2 junk oob (s.claim1 a) a with
    | none =>
      rw [hl] at hdir
      exact (Option.some_ne_none _ hdir).elim
    | some r =>
      rcases r with ⟨y, u⟩
      rw [fill1_served hl (hit2_of_line2 hl) _ _ 63 (by norm_num)] at ht
      obtain rfl := Option.some.inj ht
      have hclaim : (s.claim1 a).dram = s.dram ∧ (s.claim1 a).hit2 a = s.hit2 a := by
        rw [Hier.claim1, Hier.victim1_snd]
        exact ⟨rfl, rfl⟩
      have hline := openRows_line2 hl
      rw [hclaim.1, hclaim.2] at hline
      change u.dram.openRows = _
      simpa using hline

end Access

/-! ### The layers above the array -/

/-- The directory of the caches and the open rows. -/
structure Layers where
  dir : Dir
  rows : ℕ → ℕ → Option ℕ

/-- The layers of a state. -/
def Hier.layers (s : Hier) : Layers := ⟨s.dir, s.dram.openRows⟩

namespace Layers

/-- L1 serves the line of `a`. -/
def serve (l : Layers) (a : Word) : Option Layers := do
  let d ← l.dir.serve1 a
  return ⟨d, if l.dir.hit1 a = none ∧ l.dir.hit2 a = none then openRow l.rows a else l.rows⟩

/-- `Cache_1_read`. -/
def read (l : Layers) (a : Word) (len : ℕ) : Option Layers := do
  let l ← l.serve a
  if 64 < offsetOf a + len then l.serve (blockOf a + 64) else return l

/-- A read of `a` goes down to the array: neither level holds its line, the line
that L2 would replace is clean, and the row is not open. -/
def Bare (l : Layers) (a : Word) : Prop :=
  l.dir.hit1 a = none ∧ l.dir.hit2 a = none ∧
    l.dir.dirty (group2 a) ((l.dir.drawn1 (group1 a)).way2 (group2 a)) = false ∧
    l.rows (rankOf a) (bankOf a) ≠ some (rowOf a)

instance (l : Layers) (a : Word) : Decidable (l.Bare a) := inferInstanceAs (Decidable (_ ∧ _))

end Layers

section Layers

variable {junk : ℕ → Byte} {oob : ℕ → ℕ → Byte} {s s' : Hier} {a v : Word} {x len : ℕ}

theorem layers_line1 (h : line1 junk oob s a = some (x, s')) : s.layers.serve a = some s'.layers := by
  have hdir : s.layers.dir.serve1 a = some s'.dir := dir_of_line1 h
  unfold Layers.serve Hier.layers
  rw [openRows_line1 h, ← Hier.hit1_dir, ← Hier.hit2_dir]
  exact congrArg (Option.bind · _) hdir

/-- **A read** does to the layers what no byte has a part in. -/
theorem layers_cache1Read (h : cache1Read junk oob s a len = some (v, s')) :
    s.layers.read a len = some s'.layers := by
  unfold cache1Read at h
  obtain ⟨⟨x, t⟩, ht, h⟩ := Option.bind_eq_some_iff.mp h
  unfold Layers.read
  rw [layers_line1 ht, Option.bind_eq_bind, Option.bind_some]
  dsimp only at h
  by_cases hlen : 64 < offsetOf a + len
  · rw [if_pos hlen] at h ⊢
    obtain ⟨⟨y, u⟩, hu, h⟩ := Option.bind_eq_some_iff.mp h
    obtain ⟨-, rfl⟩ := Prod.mk.inj (Option.some.inj h)
    exact layers_line1 hu
  · rw [if_neg hlen] at h ⊢
    obtain ⟨-, rfl⟩ := Prod.mk.inj (Option.some.inj h)
    rfl

/-- Nothing is above the array exactly if the layers show nothing. -/
theorem bare_iff : s.layers.Bare a ↔ s.hit1 a = none ∧ s.hit2 a = none ∧ LineClean s a ∧ ¬ s.dram.Open a := by
  unfold Layers.Bare Hier.layers
  dsimp only
  rw [Hier.hit1_dir, Hier.hit2_dir, ← Hier.dir_victim1, Hier.way2_dir, open_iff]
  have hsnd : (s.victim1 (group1 a)).2 = { s with rand := (s.victim1 (group1 a)).2.rand } :=
    Hier.victim1_snd s _
  have hl2 : (s.victim1 (group1 a)).2.l2 = s.l2 := by rw [hsnd]
  have hhit : (s.victim1 (group1 a)).2.hit2 a = s.hit2 a := by rw [hsnd]; rfl
  refine and_congr_right fun h1 => and_congr_right fun h2 => and_congr_left fun _ => ?_
  unfold LineClean VictimClean
  rw [hhit, hl2]
  exact ⟨fun h _ _ => h, fun h => h h1 h2⟩

end Layers

end Nemu
