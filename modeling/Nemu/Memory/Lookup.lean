/-
# What one byte reads as, from any state

A device that writes the DRAM array behind the caches leaves a state that is
not coherent, so nothing can be said about it through `Coherent`. What a read
of one byte returns is still a function of the state: the byte of the L1 line,
else of the L2 line, else, when the way that L2 fills is dirty, the byte that
its write-back put there, else the byte of the open row or of the array
(`lookup`, `cache1Read_lookup`).

Key definitions: `Dram.view`, `served2`, `served1`, `lookup`.
Key theorems: `line2_served`, `line1_served`, `cache1Read_lookup`.
-/
import Nemu.Memory.Access
import Nemu.Memory.Hwaddr

namespace Nemu

open Bytes

/-! ### A byte of DRAM -/

namespace Dram

/-- The row of `a` is in the row buffer of its bank. -/
def Open (d : Dram) (a : Word) : Prop :=
  (d.rowbufs (rankOf a) (bankOf a)).valid = true ∧
    (d.rowbufs (rankOf a) (bankOf a)).rowIdx = rowOf a

instance (d : Dram) (a : Word) : Decidable (d.Open a) := inferInstanceAs (Decidable (_ ∧ _))

/-- The byte that an access to `a` finds. -/
def view (d : Dram) (a : Word) : Byte :=
  if d.Open a then (d.rowbufs (rankOf a) (bankOf a)).buf (colOf a) else d.byteAt a

end Dram

/-- The addresses share their rank, bank and row. -/
def SameRow (a b : Word) : Prop := rankOf a = rankOf b ∧ bankOf a = bankOf b ∧ rowOf a = rowOf b

theorem sameRow_burst (a : Word) : SameRow (burstOf a) a := by
  obtain ⟨h1, h2, h3, -⟩ := fields_burst (a := a) (b := a) (j := a.toNat % 8)
    (Nat.mod_lt _ (by norm_num)) (by omega)
  exact ⟨h1.symm, h2.symm, h3.symm⟩

/-- A line lies in one row. -/
theorem sameRow_line {a b : Word} (h : a.toNat / 64 = b.toNat / 64) : SameRow a b := by
  simp only [SameRow, rankOf, bankOf, rowOf]
  omega

theorem SameRow.open {a b : Word} (h : SameRow a b) (d : Dram) : d.Open a ↔ d.Open b := by
  obtain ⟨h1, h2, h3⟩ := h
  rw [Dram.Open, Dram.Open, h1, h2, h3]

namespace Dram

/-- Opening a row leaves what is found in it. -/
theorem view_loadRow (d : Dram) {a b : Word} (h : SameRow a b) :
    (d.loadRow (rankOf a) (bankOf a) (rowOf a)).view b = d.view b ∧
      (d.loadRow (rankOf a) (bankOf a) (rowOf a)).Open b := by
  obtain ⟨h1, h2, h3⟩ := h
  rw [h1, h2, h3]
  unfold loadRow
  by_cases ho : d.Open b
  · rw [if_pos (by exact ho)]
    exact ⟨rfl, ho⟩
  · rw [if_neg (by exact ho)]
    have hnew : (d.setRowbuf (rankOf b) (bankOf b)
        { buf := d.dram (rankOf b) (bankOf b) (rowOf b), rowIdx := rowOf b, valid := true }).Open b := by
      simp [Open, setRowbuf]
    refine ⟨?_, hnew⟩
    rw [view, if_pos hnew, view, if_neg ho]
    simp [setRowbuf, byteAt]

end Dram

section Access

variable (junk : ℕ → Byte) (oob : ℕ → ℕ → Byte)

/-- A byte read through the row buffer, whatever the buffers hold. -/
theorem dramRead_view (d : Dram) {a : Word} (ha : a.toNat < hwMemSize) :
    ∃ v d', dramRead junk d a 1 = some (v, d') ∧ byte (v &&& low 1) 0 = d.view a ∧
      ∀ b, SameRow a b → d'.view b = d.view b := by
  have hoff : ¬ a.toNat % 8 + 1 > 8 := by omega
  have hrow := sameRow_burst a
  have hrun := dramRead.eq_1 junk d a 1
  simp only [ddr3Read, if_pos ha, hoff, Option.bind_eq_bind, Option.bind_some,
    ↓reduceIte] at hrun
  refine ⟨_, _, hrun, ?_, fun b hb => ?_⟩
  · obtain ⟨hview, hopen⟩ := d.view_loadRow hrow
    rw [Dram.view, if_pos hopen] at hview
    rw [byte_and_low _ (by norm_num), if_pos one_pos, byte_word _ _ _ (by norm_num),
      if_pos (by norm_num), if_pos (by omega), ← hview, hrow.1, hrow.2.1]
    obtain ⟨-, -, -, hcol⟩ := fields_burst (a := a) (b := a) (j := a.toNat % 8)
      (Nat.mod_lt _ (by norm_num)) (by omega)
    rw [Nat.add_zero, ← hcol]
  · have hab : SameRow (burstOf a) b :=
      ⟨hrow.1.trans hb.1, hrow.2.1.trans hb.2.1, hrow.2.2.trans hb.2.2⟩
    exact (d.view_loadRow hab).1

/-- A byte written through the row buffer. -/
theorem dramWrite_view (d : Dram) {a : Word} (ha : a.toNat < hwMemSize) (data : Word) :
    ∃ d', dramWrite junk d a 1 data = some d' ∧
      ∀ b, b.toNat < hwMemSize → SameRow a b →
        d'.view b = if b = a then byte data 0 else d.view b := by
  have hoff : ¬ a.toNat % 8 + 1 > 8 := by omega
  have hrow := sameRow_burst a
  obtain ⟨-, -, -, hcol⟩ := fields_burst (a := a) (b := a) (j := a.toNat % 8)
    (Nat.mod_lt _ (by norm_num)) (by omega)
  have hrun := dramWrite.eq_1 junk d a 1 data
  simp only [ddr3Write, if_pos ha, hoff, Option.bind_eq_bind, Option.bind_some,
    ↓reduceIte] at hrun
  refine ⟨_, hrun, fun b hb hab => ?_⟩
  have htb : SameRow (burstOf a) b :=
    ⟨hrow.1.trans hab.1, hrow.2.1.trans hab.2.1, hrow.2.2.trans hab.2.2⟩
  obtain ⟨hview, hopen⟩ := d.view_loadRow htb
  -- the row stays open, so the buffer decides
  rw [Dram.view, if_pos (by simpa [Dram.Open, Dram.storeRow, Dram.setRowbuf, htb.1, htb.2.1] using hopen)]
  rw [Dram.view, if_pos hopen] at hview
  simp only [Dram.storeRow, Dram.setRowbuf, htb.1, htb.2.1, and_self, ↓reduceIte, memcpyWithMask]
  have heq : (colOf (burstOf a) ≤ colOf b ∧ colOf b < colOf (burstOf a) + 8 ∧
      decide (a.toNat % 8 ≤ colOf b - colOf (burstOf a) ∧
        colOf b - colOf (burstOf a) < a.toNat % 8 + 1) = true) ↔ b = a := by
    rw [decide_eq_true_eq]
    constructor
    · rintro ⟨h1, -, h2, h3⟩
      exact eq_of_fields hb ha (by omega) hab.2.2.symm hab.2.1.symm hab.1.symm
    · rintro rfl
      omega
  by_cases hba : b = a
  · rw [if_pos (heq.mpr hba), if_pos hba, hba, if_pos (by omega),
      show colOf a - colOf (burstOf a) - a.toNat % 8 = 0 by omega]
  · rw [if_neg fun h => hba (heq.mp h), if_neg hba, ← hview, htb.1, htb.2.1]

/-! ### A line of L2 -/

/-- Byte `j` of the line of `a`, as L2 serves it. -/
def served2 (s : Hier) (a : Word) (j : ℕ) : Byte :=
  match s.hit2 a with
  | some x => (s.l2 (group2 a) x).data j
  | none =>
    let x := (s.victim2 (group2 a)).1
    if (s.l2 (group2 a) x).dirty then l1Raw oob s (group2 a) x j
    else s.dram.view (blockOf a + BitVec.ofNat 32 j)

variable {oob} in
theorem served2_of_hit {s : Hier} {a : Word} {x : ℕ} (h : s.hit2 a = some x) (j : ℕ) :
    served2 oob s a j = (s.l2 (group2 a) x).data j := by rw [served2, h]

variable {oob} in
theorem served2_of_miss {s : Hier} {a : Word} (h : s.hit2 a = none) (j : ℕ) :
    served2 oob s a j = if (s.l2 (group2 a) (s.victim2 (group2 a)).1).dirty
      then l1Raw oob s (group2 a) (s.victim2 (group2 a)).1 j
      else s.dram.view (blockOf a + BitVec.ofNat 32 j) := by rw [served2, h]

/-- The bytes of a line. -/
theorem block_facts {a : Word} (ha : a.toNat < hwMemSize) {j : ℕ} (hj : j < 64) :
    (blockOf a + BitVec.ofNat 32 j).toNat < hwMemSize ∧
      (blockOf a + BitVec.ofNat 32 j).toNat / 64 = a.toNat / 64 := by
  have h := toNat_block_add a hj
  simp only [hwMemSize] at ha ⊢
  omega

theorem block_inj (a : Word) {i j : ℕ} (hi : i < 64) (hj : j < 64) :
    blockOf a + BitVec.ofNat 32 i = blockOf a + BitVec.ofNat 32 j ↔ i = j := by
  constructor
  · intro h
    have hi' := toNat_block_add a hi
    have hj' := toNat_block_add a hj
    rw [h] at hi'
    omega
  · rintro rfl
    rfl

theorem sameRow_block (a : Word) {i j : ℕ} (hi : i < 64) (hj : j < 64) :
    SameRow (blockOf a + BitVec.ofNat 32 i) (blockOf a + BitVec.ofNat 32 j) := by
  have hi' := toNat_block_add a hi
  have hj' := toNat_block_add a hj
  exact sameRow_line (by omega)

theorem writeBack2_view {s : Hier} {a : Word} (ha : a.toNat < hwMemSize) (g x : ℕ) :
    ∀ n ≤ 64, ∃ d, writeBack2 junk oob s (blockOf a) g x n = some { s with dram := d } ∧
      ∀ j < 64, d.view (blockOf a + BitVec.ofNat 32 j) =
        if j < n then l1Raw oob s g x j else s.dram.view (blockOf a + BitVec.ofNat 32 j) := by
  refine writeBack2_of_writes junk oob ?_ fun j _ => (if_neg (Nat.not_lt_zero j)).symm
  intro n hn d hd
  obtain ⟨d', hw, hd'⟩ := dramWrite_view junk d (block_facts ha hn).1 ((l1Raw oob s g x n).setWidth 32)
  refine ⟨d', hw, fun j hj => ?_⟩
  rw [hd' _ (block_facts ha hj).1 (sameRow_block a hn hj), hd j hj]
  simp only [block_inj a hj hn]
  rcases Nat.lt_trichotomy j n with h | h | h
  · rw [if_neg h.ne, if_pos h, if_pos (by omega)]
  · rw [if_pos h, if_pos (by omega), byte_setWidth, if_pos rfl, h]
  · rw [if_neg h.ne', if_neg (by omega), if_neg (by omega)]

theorem fill2_view {s : Hier} {a : Word} (ha : a.toNat < hwMemSize) (g x : ℕ) :
    ∀ n ≤ 64, ∃ d, fill2 junk s (blockOf a) g x n = some (({ s with dram := d } : Hier).setL2 g x
        { s.l2 g x with data := fun i =>
            if i < n then s.dram.view (blockOf a + BitVec.ofNat 32 i) else (s.l2 g x).data i }) ∧
      ∀ j < 64, d.view (blockOf a + BitVec.ofNat 32 j) = s.dram.view (blockOf a + BitVec.ofNat 32 j) := by
  refine fill2_of_reads junk ?_ (fun _ _ => rfl) g x
  intro d hd j hj
  obtain ⟨v, d', hr, hv, hd'⟩ := dramRead_view junk d (block_facts ha hj).1
  exact ⟨v, d', hr, hv.trans (hd j hj), fun i hi => (hd' _ (sameRow_block a hj hi)).trans (hd i hi)⟩

/-- What a miss does, from any state. -/
theorem alloc2_view {s : Hier} {a : Word} (ha : a.toNat < hwMemSize) (hm : s.hit2 a = none) :
    ∃ d c, alloc2 junk oob s a = some ((s.victim2 (group2 a)).1,
      ({ s with dram := d, rand := (s.victim2 (group2 a)).2.rand } : Hier).setL2 (group2 a)
        (s.victim2 (group2 a)).1 c) ∧ c.valid = true ∧ c.tag = tag2 a ∧ c.dirty = false ∧
      ∀ j < 64, c.data j = served2 oob s a j := by
  set g := group2 a with hg
  set x := (s.victim2 g).1 with hx
  set s1 := (s.victim2 g).2 with hs1
  have h1 : s1 = { s with rand := s1.rand } := Hier.victim2_snd s g
  have hdirty : (s1.l2 g x).dirty = (s.l2 g x).dirty := by rw [h1]
  have hserved : ∀ j, served2 oob s a j = if (s.l2 g x).dirty then l1Raw oob s g x j
      else s.dram.view (blockOf a + BitVec.ofNat 32 j) := served2_of_miss hm
  -- the write-back, when there is one
  have hwb : ∃ d, (if (s1.l2 g x).dirty then writeBack2 junk oob s1 (blockOf a) g x 64
      else some s1) = some { s1 with dram := d } ∧
      ∀ j < 64, d.view (blockOf a + BitVec.ofNat 32 j) = served2 oob s a j := by
    have hdr : s1.dram = s.dram := by rw [h1]
    rw [hdirty]
    cases hd : (s.l2 g x).dirty with
    | false => exact ⟨s1.dram, rfl, fun j _ => by rw [hserved, hd, hdr]; rfl⟩
    | true =>
      obtain ⟨d, hw, hf⟩ := writeBack2_view junk oob (s := s1) ha g x 64 le_rfl
      have hraw : ∀ j, l1Raw oob s1 g x j = l1Raw oob s g x j := fun j => by rw [h1]; rfl
      exact ⟨d, hw, fun j hj => by rw [hf j hj, if_pos hj, hraw, hserved, hd]; rfl⟩
  obtain ⟨d, hw, hd⟩ := hwb
  set s2 : Hier := { s1 with dram := d }
  set s3 := s2.setL2 g x { s2.l2 g x with valid := true, tag := tag2 a, dirty := false } with hs3
  obtain ⟨d', hf, -⟩ := fill2_view junk (s := s3) ha g x 64 le_rfl
  refine ⟨d', { s3.l2 g x with data := fun i =>
      if i < 64 then s3.dram.view (blockOf a + BitVec.ofNat 32 i) else (s3.l2 g x).data i },
    ?_, ?_, ?_, ?_, fun j hj => (if_pos hj).trans (hd j hj)⟩
  · rw [alloc2_eq, ← hx, ← hs1, hw, Option.bind_some, hf, Option.bind_some]
    have hset : ({ s3 with dram := d' } : Hier) = ({ s2 with dram := d' } : Hier).setL2 g x
        { s2.l2 g x with valid := true, tag := tag2 a, dirty := false } := rfl
    have hbase : ({ s2 with dram := d' } : Hier) = { s with dram := d', rand := s1.rand } := by
      simp only [s2]; rw [h1]
    rw [hset, Hier.setL2_setL2, hbase]
  · rw [hs3, Hier.l2_setL2]
  · rw [hs3, Hier.l2_setL2]
  · rw [hs3, Hier.l2_setL2]

/-- A way that was filled is found. -/
theorem hit2_setL2 {s : Hier} {a : Word} (hm : s.hit2 a = none) {x : ℕ} (hx : x < 16)
    {c : Cache2} (hv : c.valid = true) (ht : c.tag = tag2 a) :
    (s.setL2 (group2 a) x c).hit2 a = some x := by
  have hold : ∀ y, (s.setL2 (group2 a) x c).Holds2 a.toNat y ↔ y = x := by
    intro y
    rw [Hier.holds2_setL2 s hx]
    split_ifs with h
    · exact ⟨fun _ => h.2, fun _ => ⟨hv, ht⟩⟩
    · exact ⟨fun hy => absurd hy (Hier.not_holds2_of_hit2 hm y), fun hy => absurd ⟨rfl, hy⟩ h⟩
  cases hh : (s.setL2 (group2 a) x c).hit2 a with
  | none => exact absurd ((hold x).mpr rfl) (Hier.not_holds2_of_hit2 hh x)
  | some y => rw [(hold y).mp (Hier.holds2_of_hit2 hh)]

/-- **L2 serves a line**, and finds it again. -/
theorem line2_served {s : Hier} {a : Word} (ha : a.toNat < hwMemSize) :
    ∃ x s', line2 junk oob s a = some (x, s') ∧ s'.l1 = s.l1 ∧ s'.hit2 a = some x ∧
      ∀ j < 64, (s'.l2 (group2 a) x).data j = served2 oob s a j := by
  cases hh : s.hit2 a with
  | some x => exact ⟨x, s, by rw [line2, hh], rfl, hh, fun j _ => (served2_of_hit hh j).symm⟩
  | none =>
    obtain ⟨d, c, hrun, hv, ht, -, hc⟩ := alloc2_view junk oob ha hh
    have hl : line2 junk oob s a = alloc2 junk oob s a := by rw [line2, hh]
    refine ⟨_, _, hl.trans hrun, rfl, ?_, fun j hj => ?_⟩
    · exact hit2_setL2 (s := { s with dram := d, rand := (s.victim2 (group2 a)).2.rand })
        hh (s.victim2_lt _) hv ht
    · rw [Hier.l2_setL2, hc j hj]

/-- The victim depends on its set and on `rand()` only. -/
theorem victim2_congr {s t : Hier} {g : ℕ} (h2 : s.l2 g = t.l2 g) (hr : s.rand = t.rand) :
    (s.victim2 g).1 = (t.victim2 g).1 := by
  unfold Hier.victim2 Hier.drawRand
  rw [h2, hr]
  split <;> rfl

/-! ### A line of L1 -/

/-- Byte `j` of the line of `a`, as L1 serves it. -/
def served1 (s : Hier) (a : Word) (j : ℕ) : Byte :=
  match s.hit1 a with
  | some x => (s.l1 (group1 a) x).data j
  | none => served2 oob (s.victim1 (group1 a)).2 a j

/-- What a read of the byte at `a` returns. -/
def lookup (s : Hier) (a : Word) : Byte := served1 oob s a (offsetOf a)

/-- **L1 serves a line.** -/
theorem line1_served {s : Hier} {a : Word} (ha : a.toNat < hwMemSize) :
    ∃ x s', line1 junk oob s a = some (x, s') ∧
      ∀ j < 64, (s'.l1 (group1 a) x).data j = served1 oob s a j := by
  cases hh : s.hit1 a with
  | some x => exact ⟨x, s, by rw [line1, hh], fun j _ => by rw [served1, hh]⟩
  | none =>
    set g := group1 a
    set x := (s.victim1 g).1
    set t := (s.victim1 g).2 with ht
    set u := t.setL1 g x { t.l1 g x with valid := true, tag := tag1 a } with hu
    obtain ⟨y, s', hl, -, hy, hs'⟩ := line2_served junk oob (s := u) ha
    obtain ⟨c, hfill, hc⟩ : ∃ c, fill1 junk oob u (blockOf a) g x 64 = some (s'.setL1 g x c) ∧
        ∀ j < 64, c.data j = (s'.l2 (group2 a) y).data j :=
      ⟨_, fill1_served hl hy g x 63 (by norm_num), fun j hj => if_pos hj⟩
    -- claiming the way changes no data, so L2 serves the same bytes
    have hraw : ∀ g' z j, l1Raw oob u g' z j = l1Raw oob t g' z j := by
      intro g' z j
      unfold l1Raw
      split_ifs
      · by_cases he : (g' * 8 + z) / 8 = g ∧ (g' * 8 + z) % 8 = x
        · rw [he.1, he.2, hu, Hier.l1_setL1]
        · rw [hu, Hier.l1_setL1_of_ne t _ he]
      · rfl
    have hserved : ∀ j, served2 oob u a j = served2 oob t a j := by
      intro j
      unfold served2
      simp only [hraw, victim2_congr (s := u) (t := t) rfl rfl]
      rfl
    refine ⟨x, s'.setL1 g x c, ?_, fun j hj => ?_⟩
    · rw [line1, hh]
      change (fill1 junk oob u (blockOf a) g x 64).bind _ = _
      rw [hfill]
      rfl
    · rw [Hier.l1_setL1, hc j hj, hs' j hj, hserved, served1, hh]

/-- **A read of one byte returns `lookup`.** -/
theorem cache1Read_lookup {s : Hier} {a : Word} (ha : a.toNat < hwMemSize) :
    ∃ v s', cache1Read junk oob s a 1 = some (v, s') ∧
      v &&& low 1 = (lookup oob s a).setWidth 32 := by
  obtain ⟨x, s', hl, hd⟩ := line1_served junk oob (s := s) ha
  have hoff : ¬ offsetOf a + 1 > 64 := by simp only [offsetOf]; omega
  have hrun := cache1Read.eq_1 junk oob s a 1
  simp only [hl, Option.bind_eq_bind, Option.bind_some, hoff, ↓reduceIte] at hrun
  refine ⟨_, s', hrun, ext_bytes fun i hi => ?_⟩
  rw [byte_and_low _ (by norm_num), byte_setWidth]
  by_cases h0 : i = 0
  · rw [if_pos (by omega), if_pos h0, byte_word _ _ _ hi, if_pos hi, h0, Nat.add_zero,
      if_pos (by simp only [offsetOf]; omega), hd _ (by simp only [offsetOf]; omega), lookup]
  · rw [if_neg (by omega), if_neg h0]

/-- What `hwaddr_read` of one byte of RAM returns. -/
theorem hwaddrRead_lookup {δ : Type} {m : Memory δ} {a : Word} (ha : a.toNat < hwMemSize)
    (hm : isMmio m.mmio a = none) :
    (hwaddrRead junk oob m a 1).map Prod.fst = some ((lookup oob m.cache a).setWidth 32) := by
  obtain ⟨v, s', hr, hv⟩ := cache1Read_lookup junk oob (s := m.cache) ha
  unfold hwaddrRead
  rw [hm]
  simp only [hr, hv, Option.bind_eq_bind, Option.bind_some]
  rfl

end Access

end Nemu
