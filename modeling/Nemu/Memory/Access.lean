/-
# Accesses through the caches

While no dirty line of L2 is replaced, a read through L1 returns the bytes of
the memory the hierarchy holds and a write stores into it, whatever hits,
misses and line crossings it is made of. The conditions are on the state before
the access: `draw1` and `draw2` say which `rand()` values the first line
consumes, so that the victims of the second line are known too.

Key definitions: `VictimClean`, `LineClean`, `ReadClean`, `WriteClean`.
Key theorems: `Coherent.line1`, `Coherent.cache1Read`, `Coherent.cache1Write`.
-/
import Nemu.Memory.Coherence

namespace Nemu

open Bytes

/-! ### When no dirty line is replaced -/

/-- Serving `a` in L2 replaces no dirty line. -/
def VictimClean (s : Hier) (a : Word) : Prop :=
  s.hit2 a = none → (s.l2 (group2 a) (s.victim2 (group2 a)).1).dirty = false

/-- Serving `a` in L1 replaces no dirty line of L2. -/
def LineClean (s : Hier) (a : Word) : Prop :=
  s.hit1 a = none → VictimClean (s.victim1 (group1 a)).2 a

/-- The state after the draws that serving `a` in L1 makes. -/
def Hier.draw1 (s : Hier) (a : Word) : Hier :=
  if (s.hit1 a).isSome then s else (s.victim1 (group1 a)).2.draw2 a

/-- The draws change `rand()` only. -/
theorem Hier.draw2_eq (s : Hier) (a : Word) : s.draw2 a = { s with rand := (s.draw2 a).rand } := by
  unfold Hier.draw2
  split
  · rfl
  · exact Hier.victim2_snd s _

theorem Hier.draw1_eq (s : Hier) (a : Word) : s.draw1 a = { s with rand := (s.draw1 a).rand } := by
  unfold Hier.draw1
  split
  · rfl
  · rw [Hier.draw2_eq, Hier.victim1_snd]

/-- A read replaces no dirty line of L2, in either line it touches. -/
def ReadClean (s : Hier) (a : Word) (len : ℕ) : Prop :=
  LineClean s a ∧ (64 < offsetOf a + len → LineClean (s.draw1 a) (blockOf a + 64))

/-- A write replaces no dirty line of L2, in either line it touches. -/
def WriteClean (s : Hier) (a : Word) (len : ℕ) : Prop :=
  VictimClean s a ∧ (64 < offsetOf a + len → VictimClean (s.draw2 a) (blockOf a + 64))

instance (s : Hier) (a : Word) : Decidable (VictimClean s a) :=
  inferInstanceAs (Decidable (_ → _))

instance (s : Hier) (a : Word) : Decidable (LineClean s a) :=
  inferInstanceAs (Decidable (_ → _))

instance (s : Hier) (a : Word) (len : ℕ) : Decidable (ReadClean s a len) :=
  inferInstanceAs (Decidable (_ ∧ _))

instance (s : Hier) (a : Word) (len : ℕ) : Decidable (WriteClean s a len) :=
  inferInstanceAs (Decidable (_ ∧ _))

/-- The condition looks at the sets of `a` and at `rand()` only. -/
theorem victimClean_congr {s t : Hier} {a : Word} (h2 : s.l2 (group2 a) = t.l2 (group2 a))
    (hr : s.rand = t.rand) : VictimClean s a ↔ VictimClean t a := by
  have hhit : s.hit2 a = t.hit2 a := by unfold Hier.hit2; rw [h2]
  have hvic : (s.victim2 (group2 a)).1 = (t.victim2 (group2 a)).1 := by
    unfold Hier.victim2 Hier.drawRand
    rw [h2, hr]
    split <;> rfl
  rw [VictimClean, VictimClean, hhit, hvic, h2]

theorem draw2_rand_congr {s t : Hier} {a : Word} (h2 : s.l2 (group2 a) = t.l2 (group2 a))
    (hr : s.rand = t.rand) : (s.draw2 a).rand = (t.draw2 a).rand := by
  unfold Hier.draw2 Hier.hit2 Hier.victim2 Hier.drawRand
  rw [h2, hr]
  split
  · exact hr
  · split
    · exact hr
    · rfl

theorem lineClean_congr {s t : Hier} {a : Word} (h1 : s.l1 (group1 a) = t.l1 (group1 a))
    (h2 : s.l2 (group2 a) = t.l2 (group2 a)) (hr : s.rand = t.rand) :
    LineClean s a ↔ LineClean t a := by
  have hhit : s.hit1 a = t.hit1 a := by unfold Hier.hit1; rw [h1]
  have hrand : (s.victim1 (group1 a)).2.rand = (t.victim1 (group1 a)).2.rand := by
    unfold Hier.victim1 Hier.drawRand
    rw [h1, hr]
    split
    · exact hr
    · rfl
  rw [LineClean, LineClean, hhit]
  refine imp_congr_right fun _ => victimClean_congr ?_ hrand
  rw [Hier.victim1_snd s, Hier.victim1_snd t]
  exact h2

/-! ### The two lines of a crossing access are in different sets -/

theorem group_next {a b : Word} (h : b.toNat = a.toNat / 64 * 64 + 64) :
    group1 b ≠ group1 a ∧ group2 b ≠ group2 a := by
  simp only [group1, group2, h]
  omega

section Access

variable (junk : ℕ → Byte) (oob : ℕ → ℕ → Byte)

/-! ### L2 -/

/-- The addresses of a line are served alike. -/
theorem line2_line (s : Hier) {a b : Word} (h : a.toNat / 64 = b.toNat / 64) :
    line2 junk oob s a = line2 junk oob s b := by
  have hg : group2 a = group2 b := by rw [group2, group2, h]
  have ht : tag2 a = tag2 b := by rw [tag2, tag2, h]
  have hb : blockOf a = blockOf b := BitVec.eq_of_toNat_eq (by rw [toNat_blockOf, toNat_blockOf, h])
  unfold line2 Hier.hit2 alloc2
  rw [hg, ht, hb]

/-- A line that is there is found. -/
theorem Lower.hit2_of_holds {mem : Flat} {s : Hier} (h : Lower mem s) {a : Word} {y : ℕ}
    (hy : s.Holds2 a.toNat y) : s.hit2 a = some y := by
  cases hh : s.hit2 a with
  | none => exact absurd hy (Hier.not_holds2_of_hit2 hh y)
  | some z => rw [h.uniq (Hier.holds2_of_hit2 hh) hy]

theorem Lower.line2_of_holds {mem : Flat} {s : Hier} (h : Lower mem s) {a : Word} {y : ℕ}
    (hy : s.Holds2 a.toNat y) : line2 junk oob s a = some (y, s) := by
  rw [Nemu.line2, h.hit2_of_holds hy]

variable {oob} in
theorem evict_of_clean {s : Hier} {a : Word}
    (h : (s.l2 (group2 a) (s.victim2 (group2 a)).1).dirty = false) (mem : Flat) :
    evict oob s a mem = mem := by
  funext n
  simp only [evict, h, Bool.false_eq_true, ↓reduceIte]

/-- Serving a line in L2, when no dirty line is replaced. -/
theorem Lower.line2 {mem : Flat} {s : Hier} (h : Lower mem s) {a : Word}
    (ha : a.toNat < hwMemSize) (hc : VictimClean s a) :
    ∃ y s', line2 junk oob s a = some (y, s') ∧ Lower mem s' ∧ s'.Holds2 a.toNat y ∧
      Served2 s a s' := by
  cases hh : s.hit2 a with
  | some y =>
    have hy := Hier.holds2_of_hit2 hh
    exact ⟨y, s, h.line2_of_holds junk oob hy, h, hy, rfl, fun _ => rfl, by rw [Hier.draw2, hh]; rfl⟩
  | none =>
    obtain ⟨s', hrun, hlow, hy, hs⟩ := h.alloc2 junk oob ha hh
    rw [evict_of_clean (hc hh)] at hlow
    exact ⟨_, s', by rw [Nemu.line2, hh]; exact hrun, hlow, hy, hs⟩

variable {junk oob} in
/-- A byte read from L2 is the byte of the line that was served. -/
theorem cache2Read_served {s s' : Hier} {a : Word} {y : ℕ}
    (hl : Nemu.line2 junk oob s a = some (y, s')) :
    ∃ v, cache2Read junk oob s a 1 = some (v, s') ∧
      byte (v &&& low 1) 0 = (s'.l2 (group2 a) y).data (offsetOf a) := by
  have hoff : ¬ offsetOf a + 1 > 64 := by simp only [offsetOf]; omega
  have hrun := cache2Read.eq_1 junk oob s a 1
  simp only [hl, Option.bind_eq_bind, Option.bind_some, hoff, ↓reduceIte] at hrun
  refine ⟨_, hrun, ?_⟩
  rw [byte_and_low _ (by norm_num), if_pos one_pos, byte_word _ _ _ (by norm_num),
    if_pos (by norm_num), if_pos (by simp only [offsetOf]; omega), Nat.add_zero]

variable {junk oob} in
/-- Filling a line of L1 serves the block in L2 once and copies its bytes. -/
theorem fill1_served {s s' : Hier} {a : Word} {y : ℕ}
    (hl : Nemu.line2 junk oob s a = some (y, s')) (hy : s'.hit2 a = some y) (g x : ℕ) :
    ∀ n < 64, fill1 junk oob s (blockOf a) g x (n + 1) = some (s'.setL1 g x
      { s'.l1 g x with data := fun i =>
          if i < n + 1 then (s'.l2 (group2 a) y).data i else (s'.l1 g x).data i })
  | 0, _ => by
    have hj := toNat_block_add a (j := 0) (by norm_num)
    have hk : (blockOf a + BitVec.ofNat 32 0).toNat / 64 = a.toNat / 64 := by omega
    obtain ⟨v, hr, hv⟩ := cache2Read_served ((line2_line junk oob s hk).trans hl)
    have hoff : offsetOf (blockOf a + BitVec.ofNat 32 0) = 0 := by simp only [offsetOf]; omega
    rw [group2, hk, ← group2, hoff] at hv
    simp only [fill1, Option.bind_eq_bind, Option.bind_some, hr]
    refine congrArg (fun f => some (s'.setL1 g x { s'.l1 g x with data := f })) (funext fun i => ?_)
    by_cases hi : i = 0
    · simp only [hi, hv, Nat.lt_add_one, ↓reduceIte]
    · simp only [hi, show ¬ i < 0 + 1 by omega, ↓reduceIte]
  | n + 1, hn => by
    have ih := fill1_served hl hy g x n (by omega)
    have hj := toNat_block_add a (j := n + 1) hn
    have hk : (blockOf a + BitVec.ofNat 32 (n + 1)).toNat / 64 = a.toNat / 64 := by omega
    have hoff : offsetOf (blockOf a + BitVec.ofNat 32 (n + 1)) = n + 1 := by
      simp only [offsetOf]; omega
    -- the line is in L2 by now, so the read leaves everything as it is
    have hl2 : ∀ c, line2 junk oob (s'.setL1 g x c) (blockOf a + BitVec.ofNat 32 (n + 1)) =
        some (y, s'.setL1 g x c) := by
      intro c
      rw [line2_line junk oob _ hk, line2, show (s'.setL1 g x c).hit2 a = some y from hy]
    obtain ⟨v, hr, hv⟩ := cache2Read_served (hl2 _)
    rw [group2, hk, ← group2, hoff] at hv
    rw [fill1, ih]
    simp only [Option.bind_eq_bind, Option.bind_some]
    rw [hr]
    simp only [Option.bind_some, Hier.setL1_setL1, Hier.l1_setL1]
    refine congrArg (fun f => some (s'.setL1 g x { s'.l1 g x with data := f })) (funext fun i => ?_)
    rcases Nat.lt_trichotomy i (n + 1) with hi | hi | hi
    · rw [if_neg hi.ne, if_pos hi, if_pos (by omega)]
    · rw [if_pos hi, if_pos (by omega), hv, hi]
      rfl
    · rw [if_neg hi.ne', if_neg (by omega), if_neg (by omega)]

variable {junk oob} in
/-- The bytes of the block, when L2 holds it. -/
theorem fill1_spec {mem : Flat} {s s' : Hier} {a : Word} {y : ℕ}
    (hl : Nemu.line2 junk oob s a = some (y, s')) (h : Lower mem s') (hy : s'.Holds2 a.toNat y)
    (g x n : ℕ) (hn : n < 64) : fill1 junk oob s (blockOf a) g x (n + 1) = some (s'.setL1 g x
        { s'.l1 g x with data := fun i =>
            if i < n + 1 then mem (a.toNat / 64 * 64 + i) else (s'.l1 g x).data i }) := by
  rw [fill1_served hl (h.hit2_of_holds hy) g x n hn]
  refine congrArg (fun f => some (s'.setL1 g x { s'.l1 g x with data := f })) (funext fun i => ?_)
  by_cases hi : i < n + 1
  · have hline : (a.toNat / 64 * 64 + i) / 64 = a.toNat / 64 := by omega
    have hmod : (a.toNat / 64 * 64 + i) % 64 = i := by omega
    have hd := h.data ((Hier.holds2_line hline y).mpr hy)
    rw [hline, hmod] at hd
    rw [if_pos hi, if_pos hi, ← hd]
    rfl
  · rw [if_neg hi, if_neg hi]

variable {junk oob} in
/-- Writing inside a line that L2 holds. -/
theorem Lower.cache2WriteLine_hit {mem : Flat} {s : Hier} (h : Lower mem s) {a : Word} {l : ℕ}
    (hl : offsetOf a + l ≤ 64) {x : ℕ} (hh : s.hit2 a = some x) (data : Word) :
    ∃ s', cache2WriteLine junk oob s a l data = some s' ∧
      Lower (store mem a.toNat l data) s' ∧ s'.Holds2 a.toNat x ∧ Served2 s a s' := by
  have hx := Hier.holds2_of_hit2 hh
  have hin : ∀ {n}, a.toNat ≤ n ∧ n < a.toNat + l → n / 64 = a.toNat / 64 := by
    intro n hn
    simp only [offsetOf] at hl
    omega
  set c : Cache2 := { s.l2 (group2 a) x with
    dirty := true
    data := fun i => if offsetOf a ≤ i ∧ i < offsetOf a + l then byte data (i - offsetOf a)
      else (s.l2 (group2 a) x).data i } with hcdef
  have hrun : Nemu.cache2WriteLine junk oob s a l data = some (s.setL2 (group2 a) x c) := by
    rw [Nemu.cache2WriteLine, hh]
  -- the way keeps its line
  have hold : ∀ n y, (s.setL2 (group2 a) x c).Holds2 n y ↔ s.Holds2 n y := by
    intro n y
    rw [Hier.holds2_setL2 s hx.1]
    split_ifs with he
    · rw [Hier.Holds2, he.1, he.2]
      exact ⟨fun hcy => ⟨hx.1, hcy⟩, And.right⟩
    · rfl
  have hmine : ∀ {n y}, n / 64 % 4096 = group2 a ∧ y = x → s.Holds2 n y →
      n / 64 = a.toNat / 64 := by
    intro n y he hy
    have hty := hy.2.2
    have htx := hx.2.2
    rw [he.1, he.2] at hty
    have hg := he.1
    simp only [group2] at hty hg
    omega
  refine ⟨_, hrun, ⟨h.rows, ?_, ?_, ?_, ?_, ?_⟩, (hold _ _).mpr hx, rfl, ?_, ?_⟩
  · exact fun hy => h.ram ((hold _ _).mp hy)
  · exact fun hy hz => h.uniq ((hold _ _).mp hy) ((hold _ _).mp hz)
  · intro g y hv
    by_cases he : g = group2 a ∧ y = x
    · rw [he.1, he.2, Hier.l2_setL2] at hv
      exact absurd (hx.2.1.symm.trans hv) (by simp)
    · rw [Hier.l2_setL2_of_ne s c he] at hv ⊢
      exact h.idle hv
  · intro n y hy
    have hy' := (hold n y).mp hy
    by_cases he : n / 64 % 4096 = group2 a ∧ y = x
    · have hn := hmine he hy'
      have hd := h.data hy'
      rw [he.1, he.2] at hd ⊢
      rw [Hier.l2_setL2, store, ← hd]
      have hoff : offsetOf a = a.toNat % 64 := rfl
      simp only [hcdef]
      by_cases hr : a.toNat ≤ n ∧ n < a.toNat + l
      · rw [if_pos hr, if_pos (by omega), show n % 64 - offsetOf a = n - a.toNat by omega]
      · rw [if_neg hr, if_neg (by omega)]
    · rw [Hier.l2_setL2_of_ne s c he, h.data hy', store_of_not_mem]
      intro hr
      have hxn : s.Holds2 n x := (Hier.holds2_line (hin hr) x).mpr hx
      exact he ⟨by simp only [group2, hin hr], h.uniq hy' hxn⟩
  · intro n hn hcl
    have hne : n / 64 ≠ a.toNat / 64 := by
      intro hk
      have hxn : s.Holds2 n x := (Hier.holds2_line hk x).mpr hx
      have hg : n / 64 % 4096 = group2 a := by simp only [group2, hk]
      have := hcl x ((hold n x).mpr hxn)
      rw [hg, Hier.l2_setL2] at this
      exact Bool.false_ne_true this.symm
    rw [store_of_not_mem fun hr => hne (hin hr)]
    refine h.dram hn fun y hy => ?_
    have := hcl y ((hold n y).mpr hy)
    rwa [Hier.l2_setL2_of_ne s c fun he => hne (hmine he hy)] at this
  · intro g hg
    funext y
    exact Hier.l2_setL2_of_ne s c fun he => hg he.1
  · rw [Hier.draw2, hh]
    rfl

/-- Bytes that go to DRAM, of a line that L2 does not hold. -/
theorem Lower.store_dram {mem : Flat} {s : Hier} (h : Lower mem s) {a : Word} {l : ℕ} {data : Word}
    (hl : offsetOf a + l ≤ 64) (hh : s.hit2 a = none) {d : Dram} (hok : d.RowsOk)
    (hd : ∀ n < hwMemSize, d.flat n = store s.dram.flat a.toNat l data n) :
    Lower (store mem a.toNat l data) { s with dram := d } := by
  have hmiss : ∀ {n}, a.toNat ≤ n ∧ n < a.toNat + l → ∀ y, ¬ s.Holds2 n y := by
    intro n hn
    refine Hier.not_holds2_of_miss hh ?_
    simp only [offsetOf] at hl
    omega
  refine ⟨hok, h.ram, h.uniq, h.idle, fun {n x} hy => ?_, fun {n} hn hcl => ?_⟩
  · rw [store_of_not_mem fun hr => hmiss hr x hy]
    exact h.data hy
  · change d.flat n = _
    rw [hd n hn]
    by_cases hr : a.toNat ≤ n ∧ n < a.toNat + l
    · rw [store_of_mem hr, store_of_mem hr]
    · rw [store_of_not_mem hr, store_of_not_mem hr]
      exact h.dram hn hcl

/-- Writing inside a line of L2, when no dirty line is replaced. -/
theorem Lower.cache2WriteLine {mem : Flat} {s : Hier} (h : Lower mem s) {a : Word} {l : ℕ}
    (h1 : 1 ≤ l) (h4 : l ≤ 4) (hl : offsetOf a + l ≤ 64) (ha : a.toNat < hwMemSize)
    (hc : VictimClean s a) (data : Word) :
    ∃ y s', cache2WriteLine junk oob s a l data = some s' ∧
      Lower (store mem a.toNat l data) s' ∧ s'.Holds2 a.toNat y ∧ Served2 s a s' := by
  cases hh : s.hit2 a with
  | some x => exact ⟨x, h.cache2WriteLine_hit hl hh data⟩
  | none =>
    obtain ⟨d, hw, hok, hd⟩ := dramWrite_flat junk h.rows h1 h4 (a := a)
      (by simp only [offsetOf] at hl; simp only [hwMemSize] at ha ⊢; omega) data
    set t : Hier := { s with dram := d } with ht
    have hct : VictimClean t a := (victimClean_congr (s := t) (t := s) rfl rfl).mpr hc
    obtain ⟨y, s', hl2, hlow, hy, hs⟩ := (h.store_dram hl hh hok hd).line2 junk oob ha hct
    have halloc : Nemu.alloc2 junk oob t a = some (y, s') := by
      rw [Nemu.line2, show t.hit2 a = none from hh] at hl2
      exact hl2
    refine ⟨y, s', ?_, hlow, hy, hs.l1, fun hg => hs.l2 hg, ?_⟩
    · rw [Nemu.cache2WriteLine, hh]
      simp only [hw, Option.bind_eq_bind, Option.bind_some, ← ht, halloc]
      rfl
    · rw [hs.rand]
      exact draw2_rand_congr rfl rfl

/-! ### L1 -/

theorem Upper.of_l1 {mem : Flat} {s t : Hier} (h : Upper mem s) (ht : t.l1 = s.l1) :
    Upper mem t := by
  refine ⟨fun {n x} hx => ?_, fun {n x y} hx hy => ?_, fun {n x} hx => ?_⟩ <;>
    simp only [Hier.Holds1, ht] at *
  · exact h.ram hx
  · exact h.uniq hx hy
  · exact h.data hx

/-- A change of memory that L1 has no line of. -/
theorem Upper.of_miss {mem mem' : Flat} {s : Hier} (h : Upper mem s) {a : Word}
    (hm : ∀ y, ¬ s.Holds1 a.toNat y) (hmem : ∀ n, n / 64 ≠ a.toNat / 64 → mem' n = mem n) :
    Upper mem' s where
  ram := h.ram
  uniq := h.uniq
  data := fun {n x} hx => by
    rw [hmem n fun hk => hm x ((Hier.holds1_line hk x).mp hx)]
    exact h.data hx

/-- The way that may hold the line of `a` gets it anew. -/
theorem Upper.replace {mem mem' : Flat} {s : Hier} (h : Upper mem s) {a : Word} {x : ℕ}
    {c : Cache1} (ha : a.toNat < hwMemSize) (hx : x < 8) (hm : ∀ y, s.Holds1 a.toNat y → y = x)
    (ht : c.tag = tag1 a)
    (hd : ∀ j < 64, c.data j = mem' (a.toNat / 64 * 64 + j))
    (hmem : ∀ n, n / 64 ≠ a.toNat / 64 → mem' n = mem n) :
    Upper mem' (s.setL1 (group1 a) x c) := by
  have hnew : ∀ {n y}, n / 64 % 128 = group1 a ∧ y = x →
      (s.setL1 (group1 a) x c).Holds1 n y → n / 64 = a.toNat / 64 := by
    intro n y he hy
    rw [Hier.holds1_setL1 s hx, if_pos he, ht] at hy
    have hg := he.1
    simp only [group1, tag1] at hy hg
    omega
  have hold : ∀ {n y}, ¬ (n / 64 % 128 = group1 a ∧ y = x) →
      (s.setL1 (group1 a) x c).Holds1 n y → s.Holds1 n y ∧ n / 64 ≠ a.toNat / 64 := by
    intro n y he hy
    rw [Hier.holds1_setL1 s hx, if_neg he] at hy
    refine ⟨hy, fun hk => he ⟨by simp only [group1, hk], hm y ?_⟩⟩
    exact (Hier.holds1_line hk y).mp hy
  refine ⟨fun {n y} hy => ?_, fun {n y z} hy hz => ?_, fun {n y} hy => ?_⟩
  · by_cases he : n / 64 % 128 = group1 a ∧ y = x
    · have := hnew he hy
      simp only [hwMemSize] at ha ⊢
      omega
    · exact h.ram (hold he hy).1
  · by_cases he : n / 64 % 128 = group1 a ∧ y = x
    · by_cases he' : n / 64 % 128 = group1 a ∧ z = x
      · rw [he.2, he'.2]
      · exact absurd (hnew he hy) (hold he' hz).2
    · by_cases he' : n / 64 % 128 = group1 a ∧ z = x
      · exact absurd (hnew he' hz) (hold he hy).2
      · exact h.uniq (hold he hy).1 (hold he' hz).1
  · by_cases he : n / 64 % 128 = group1 a ∧ y = x
    · have hn := hnew he hy
      rw [he.1, he.2, Hier.l1_setL1, hd _ (Nat.mod_lt _ (by norm_num)), ← hn, Nat.div_add_mod']
    · rw [Hier.l1_setL1_of_ne s c he, h.data (hold he hy).1, hmem n (hold he hy).2]

/-- What serving `a` in L1 leaves alone: the other sets. -/
structure Served1 (s : Hier) (a : Word) (s' : Hier) : Prop where
  l1 : ∀ {g}, g ≠ group1 a → s'.l1 g = s.l1 g
  l2 : ∀ {g}, g ≠ group2 a → s'.l2 g = s.l2 g
  rand : s'.rand = (s.draw1 a).rand

/-- A miss in L1 once its way is chosen: the tag is set before the fill. -/
def Hier.claim1 (s : Hier) (a : Word) : Hier :=
  (s.victim1 (group1 a)).2.setL1 (group1 a) (s.victim1 (group1 a)).1
    { s.l1 (group1 a) (s.victim1 (group1 a)).1 with valid := true, tag := tag1 a }

variable {junk oob} in
/-- A read miss in L1 fills the chosen way with what L2 serves. -/
theorem line1_of_miss {mem : Flat} {s t : Hier} {a : Word} {y : ℕ} (hm : s.hit1 a = none)
    (hl : Nemu.line2 junk oob (s.claim1 a) a = some (y, t)) (h : Lower mem t)
    (hy : t.Holds2 a.toNat y) :
    line1 junk oob s a = some ((s.victim1 (group1 a)).1,
      t.setL1 (group1 a) (s.victim1 (group1 a)).1
        { t.l1 (group1 a) (s.victim1 (group1 a)).1 with
          data := fun i =>
            if i < 64 then mem (a.toNat / 64 * 64 + i)
            else (t.l1 (group1 a) (s.victim1 (group1 a)).1).data i }) := by
  have hf := fill1_spec hl h hy (group1 a) (s.victim1 (group1 a)).1 63 (by norm_num)
  have hl1 : (s.victim1 (group1 a)).2.l1 = s.l1 := by rw [Hier.victim1_snd]
  unfold line1
  simp only [hm, Option.bind_eq_bind, hl1]
  unfold Hier.claim1 at hf
  rw [hf]
  rfl

/-- **Serving a line in L1, when no dirty line is replaced.** -/
theorem Coherent.line1 {mem : Flat} {s : Hier} (h : Coherent mem s) {a : Word}
    (ha : a.toNat < hwMemSize) (hc : LineClean s a) :
    ∃ x s', line1 junk oob s a = some (x, s') ∧ Coherent mem s' ∧ s'.Holds1 a.toNat x ∧
      Served1 s a s' := by
  cases hh : s.hit1 a with
  | some x =>
    refine ⟨x, s, by rw [Nemu.line1, hh], h, Hier.holds1_of_hit1 hh, fun _ => rfl, fun _ => rfl, ?_⟩
    rw [Hier.draw1, hh]
    rfl
  | none =>
    have hx := s.victim1_lt (group1 a)
    have hcl := hc hh
    have hd : (s.draw1 a) = (s.victim1 (group1 a)).2.draw2 a := by
      rw [Hier.draw1, hh]
      rfl
    rw [Hier.victim1_snd] at hcl hd
    set x := (s.victim1 (group1 a)).1 with hxd
    set r := (s.victim1 (group1 a)).2.rand
    have hclaim : s.claim1 a = ({ s with rand := r } : Hier).setL1 (group1 a) x
        { s.l1 (group1 a) x with valid := true, tag := tag1 a } := by
      rw [Hier.claim1, Hier.victim1_snd]
    have hlow : Lower mem (s.claim1 a) := by
      rw [hclaim]
      exact ⟨h.lower.rows, h.lower.ram, h.lower.uniq, h.lower.idle, h.lower.data, h.lower.dram⟩
    have hvc : VictimClean (s.claim1 a) a := by
      refine (victimClean_congr (t := { s with rand := r }) ?_ ?_).mpr hcl <;> rw [hclaim] <;> rfl
    obtain ⟨y, t, hl, hlt, hy, hs⟩ := hlow.line2 junk oob ha hvc
    have hrun := line1_of_miss hh hl hlt hy
    have htx : t.l1 (group1 a) x = { s.l1 (group1 a) x with valid := true, tag := tag1 a } := by
      rw [hs.l1, hclaim, Hier.l1_setL1]
    set c : Cache1 := { t.l1 (group1 a) x with
      data := fun i =>
        if i < 64 then mem (a.toNat / 64 * 64 + i) else (t.l1 (group1 a) x).data i }
    -- L1 as it was, with the new line in place of the victim
    have hup : Upper mem (s.setL1 (group1 a) x c) :=
      h.upper.replace ha hx (fun y hy => absurd hy (Hier.not_holds1_of_hit1 hh y))
        (by simp only [c, htx]) (fun j hj => if_pos hj) (fun _ _ => rfl)
    have hl1 : (t.setL1 (group1 a) x c).l1 = (s.setL1 (group1 a) x c).l1 := by
      funext g z
      by_cases he : g = group1 a ∧ z = x
      · rw [he.1, he.2, Hier.l1_setL1, Hier.l1_setL1]
      · rw [Hier.l1_setL1_of_ne t c he, Hier.l1_setL1_of_ne s c he, hs.l1, hclaim,
          Hier.l1_setL1_of_ne _ _ he]
    refine ⟨x, _, hrun, ⟨⟨hlt.rows, hlt.ram, hlt.uniq, hlt.idle, hlt.data, hlt.dram⟩,
      hup.of_l1 hl1⟩, ?_, fun {g} hg => ?_, fun {g} hg => ?_, ?_⟩
    · rw [Hier.holds1_setL1 t hx, if_pos ⟨rfl, rfl⟩]
      exact ⟨by simp only [c, htx], by simp only [c, htx]; rfl⟩
    · rw [hl1]
      funext z
      exact Hier.l1_setL1_of_ne s c fun he => hg he.1
    · change t.l2 g = _
      rw [hs.l2 hg, hclaim]
      rfl
    · change t.rand = _
      rw [hs.rand, hd, hclaim]
      exact draw2_rand_congr rfl rfl

/-- **A read returns the bytes of the memory.** -/
theorem Coherent.cache1Read {mem : Flat} {s : Hier} (h : Coherent mem s) {a : Word} {l : ℕ}
    (h1 : 1 ≤ l) (h4 : l ≤ 4) (ha : a.toNat + l ≤ hwMemSize) (hc : ReadClean s a l) :
    ∃ v s', cache1Read junk oob s a l = some (v, s') ∧ Coherent mem s' ∧
      v &&& low l = load mem a.toNat l := by
  obtain ⟨x, s1, hl, hcoh, hx, hs⟩ := h.line1 junk oob (a := a) (by omega) hc.1
  have hoff : offsetOf a = a.toNat % 64 := rfl
  have hbyte : ∀ i, offsetOf a + i < 64 →
      (s1.l1 (group1 a) x).data (offsetOf a + i) = mem (a.toNat + i) := by
    intro i hi
    have hk : (a.toNat + i) / 64 = a.toNat / 64 := by omega
    have := hcoh.upper.data ((Hier.holds1_line hk x).mpr hx)
    rwa [hk, show (a.toNat + i) % 64 = offsetOf a + i by omega] at this
  by_cases hx64 : offsetOf a + l > 64
  · simp only [hwMemSize] at ha
    have hnext : (blockOf a + 64).toNat = a.toNat / 64 * 64 + 64 := toNat_next (by omega)
    obtain ⟨hg1, hg2⟩ := group_next hnext
    have hclean : LineClean s1 (blockOf a + 64) := by
      refine (lineClean_congr ?_ ?_ hs.rand).mpr (hc.2 hx64)
      · rw [hs.l1 hg1, Hier.draw1_eq]
      · rw [hs.l2 hg2, Hier.draw1_eq]
    obtain ⟨y, s2, hl2, hcoh2, hy, -⟩ := hcoh.line1 junk oob
      (a := blockOf a + 64) (by rw [hnext, hwMemSize]; omega) hclean
    have hrun := by
      simpa only [hl, hl2, hx64, Option.bind_eq_bind, Option.bind_some, ↓reduceIte]
        using cache1Read.eq_1 junk oob s a l
    refine ⟨_, s2, hrun, hcoh2, ?_⟩
    rw [and_low_eq_word _ h4]
    refine word_congr fun i hi => ?_
    rw [byte_word _ _ _ (by omega), if_pos (by omega)]
    by_cases hlo : offsetOf a + i < 64
    · rw [if_neg (by omega), if_pos hlo, hbyte i hlo]
    · rw [if_pos ⟨by omega, by omega⟩]
      have hk : (a.toNat + i) / 64 = (blockOf a + 64).toNat / 64 := by omega
      have := hcoh2.upper.data ((Hier.holds1_line hk y).mpr hy)
      rwa [hk, show (a.toNat + i) % 64 = offsetOf a + i - 64 by omega] at this
  · have hrun := by
      simpa only [hl, hx64, Option.bind_eq_bind, Option.bind_some, ↓reduceIte]
        using cache1Read.eq_1 junk oob s a l
    refine ⟨_, s1, hrun, hcoh, ?_⟩
    rw [and_low_eq_word _ h4]
    refine word_congr fun i hi => ?_
    rw [byte_word _ _ _ (by omega), if_pos (by omega), if_pos (by omega), hbyte i (by omega)]

/-- Writing inside a line, when no dirty line is replaced: a line L1 holds is
read again from L2. -/
theorem Coherent.cache1WriteLine {mem : Flat} {s : Hier} (h : Coherent mem s) {a : Word} {l : ℕ}
    (h1 : 1 ≤ l) (h4 : l ≤ 4) (hl : offsetOf a + l ≤ 64) (ha : a.toNat < hwMemSize)
    (hc : VictimClean s a) (data : Word) :
    ∃ s', cache1WriteLine junk oob s a l data = some s' ∧
      Coherent (store mem a.toNat l data) s' ∧
      (∀ {g}, g ≠ group2 a → s'.l2 g = s.l2 g) ∧ s'.rand = (s.draw2 a).rand := by
  obtain ⟨y, t, hw, hlt, hy, hs⟩ :=
    h.lower.cache2WriteLine junk oob h1 h4 hl ha hc data
  have hcross : ¬ offsetOf a + l - 1 > 0x3f := by omega
  have hw' : cache2Write junk oob s a l data = some t := by
    rw [cache2Write, if_neg hcross, hw]
  have hmem : ∀ n, n / 64 ≠ a.toNat / 64 → store mem a.toNat l data n = mem n := by
    intro n hn
    refine store_of_not_mem fun hr => hn ?_
    simp only [offsetOf] at hl
    omega
  cases hh : s.hit1 a with
  | none =>
    refine ⟨t, ?_, ⟨hlt, Upper.of_l1 ?_ hs.l1⟩, hs.l2, hs.rand⟩
    · rw [Nemu.cache1WriteLine, hw', hh]
      rfl
    · exact h.upper.of_miss (Hier.not_holds1_of_hit1 hh) hmem
  | some x =>
    have hx := Hier.holds1_of_hit1 hh
    have hf := fill1_spec (hlt.line2_of_holds junk oob hy) hlt hy
      (group1 a) x 63 (by norm_num)
    set c : Cache1 := { t.l1 (group1 a) x with
      data := fun i =>
        if i < 63 + 1 then store mem a.toNat l data (a.toNat / 64 * 64 + i)
        else (t.l1 (group1 a) x).data i }
    refine ⟨t.setL1 (group1 a) x c, ?_,
      ⟨⟨hlt.rows, hlt.ram, hlt.uniq, hlt.idle, hlt.data, hlt.dram⟩, ?_⟩, hs.l2, hs.rand⟩
    · rw [Nemu.cache1WriteLine, hw', hh]
      simp only [Option.bind_eq_bind, Option.bind_some]
      exact hf
    · refine (h.upper.of_l1 hs.l1).replace ha hx.1 (fun z hz => ?_) ?_ (fun j hj => if_pos hj) hmem
      · refine h.upper.uniq (n := a.toNat) ?_ hx
        rwa [Hier.Holds1, hs.l1] at hz
      · change (t.l1 (group1 a) x).tag = _
        rw [hs.l1]
        exact hx.2.2

/-- **A write stores into the memory.** -/
theorem Coherent.cache1Write {mem : Flat} {s : Hier} (h : Coherent mem s) {a : Word} {l : ℕ}
    (h1 : 1 ≤ l) (h4 : l ≤ 4) (ha : a.toNat + l ≤ hwMemSize) (hc : WriteClean s a l)
    (data : Word) :
    ∃ s', cache1Write junk oob s a l data = some s' ∧
      Coherent (store mem a.toNat l data) s' := by
  have hoff : offsetOf a = a.toNat % 64 := rfl
  by_cases hx : 64 < offsetOf a + l
  · have hcross : offsetOf a + l - 1 > 0x3f := by omega
    set front := 0x3f - offsetOf a + 1 with hfront
    simp only [hwMemSize] at ha
    have hnext : (blockOf a + 64).toNat = a.toNat / 64 * 64 + 64 := toNat_next (by omega)
    have haf : a + BitVec.ofNat 32 front = blockOf a + 64 := add_front a
    have hsum : (blockOf a + 64).toNat = a.toNat + front := by rw [hnext, hfront, hoff]; omega
    obtain ⟨s1, hw1, hcoh1, hl2, hrand⟩ := h.cache1WriteLine junk oob (a := a)
      (l := front) (by omega) (by omega) (by omega) (by rw [hwMemSize]; omega) hc.1
      (data &&& (1#32 <<< (front * 8) - 1))
    have hclean : VictimClean s1 (blockOf a + 64) := by
      refine (victimClean_congr ?_ hrand).mpr (hc.2 hx)
      rw [hl2 (group_next hnext).2, Hier.draw2_eq]
    obtain ⟨s2, hw2, hcoh2, -⟩ := hcoh1.cache1WriteLine junk oob
      (a := blockOf a + 64) (l := l - front) (by omega) (by omega)
      (by simp only [offsetOf, hnext]; omega) (by rw [hnext, hwMemSize]; omega) hclean
      (data >>> (8 * front))
    refine ⟨s2, ?_, ?_⟩
    · rw [Nemu.cache1Write, if_pos hcross]
      simp only [← hfront, hw1, Option.bind_eq_bind, Option.bind_some, haf, hw2]
    · rw [hsum, show (1#32 <<< (front * 8) - 1 : Word) = low front from
        low_eq_shl_sub_one (by omega), store_store mem a.toNat (by omega) h4] at hcoh2
      exact hcoh2
  · obtain ⟨s1, hw1, hcoh1, -⟩ := h.cache1WriteLine junk oob h1 h4 (by omega)
      (by simp only [hwMemSize] at ha ⊢; omega) hc.1 data
    refine ⟨s1, ?_, hcoh1⟩
    rw [Nemu.cache1Write, if_neg (by omega), hw1]

end Access

end Nemu
