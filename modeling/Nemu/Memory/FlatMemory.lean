/-
# The hierarchy as one flat memory

A run of physical accesses to RAM returns what a flat byte array would return,
as long as no access replaces a dirty line of L2 (`runMem_eq_flatRun`). A dirty
line that is replaced is lost: sixteen reads that share its set bring the old
bytes back (`runMem_ne_flatRun`).

Key definitions: `MemOp.Ok`, `flatRun`, `CleanRun`.
Key theorems: `runMem_eq_flatRun`, `runMem_ne_flatRun`.
-/
import Nemu.Memory.Access
import Nemu.Memory.Hwaddr

namespace Nemu

open Bytes

variable {δ : Type}

/-- The bytes from `a` on are RAM and belong to no device. -/
def InRam (m : Mmio δ) (a : Word) (len : ℕ) : Prop :=
  1 ≤ len ∧ len ≤ 4 ∧ a.toNat + len ≤ hwMemSize ∧
    ∀ i < len, isMmio m (a + BitVec.ofNat 32 i) = none

/-- An access to RAM; a write does not start at address 0. -/
def MemOp.Ok (m : Mmio δ) : MemOp → Prop
  | .read a len => InRam m a len
  | .write a len _ => InRam m a len ∧ a ≠ 0

/-- What the reads of a run return from a flat memory. -/
def flatRun (mem : Flat) : List MemOp → List Word
  | [] => []
  | .read a len :: ops => load mem a.toNat len :: flatRun mem ops
  | .write a len data :: ops => flatRun (store mem a.toNat len data) ops

section Runs

variable (junk : ℕ → Byte) (oob : ℕ → ℕ → Byte)

/-- No access of the run replaces a dirty line of L2. -/
def CleanRun (m : Memory δ) : List MemOp → Prop
  | [] => True
  | .read a len :: ops => ReadClean m.cache a len ∧
      ∀ v m', hwaddrRead junk oob m a len = some (v, m') → CleanRun m' ops
  | .write a len data :: ops => WriteClean m.cache a len ∧
      ∀ m', hwaddrWrite junk oob m a len data = some m' → CleanRun m' ops

/-- An access to RAM goes to the caches. -/
theorem InRam.isMmio {m : Mmio δ} {a : Word} {len : ℕ} (h : InRam m a len) :
    isMmio m a = none := by
  have := h.2.2.2 0 (by have := h.1; omega)
  rwa [BitVec.add_zero] at this

theorem isMmio_of_no_maps {m : Mmio δ} (h : m.maps = []) (a : Word) : isMmio m a = none := by
  rw [isMmio, h]
  rfl

theorem hwaddrRead_eq {m : Memory δ} {a : Word} {l : ℕ} (h : isMmio m.mmio a = none) :
    hwaddrRead junk oob m a l = (cache1Read junk oob m.cache a l).bind fun r =>
      some (r.1 &&& low l, { m with cache := r.2 }) := by
  unfold hwaddrRead
  rw [h]
  rfl

theorem hwaddrWrite_eq {m : Memory δ} {a : Word} {l : ℕ} {v : Word} (h0 : a ≠ 0)
    (h : isMmio m.mmio a = none) :
    hwaddrWrite junk oob m a l v = (cache1Write junk oob m.cache a l v).bind fun c =>
      some { m with cache := c } := by
  unfold hwaddrWrite
  rw [if_neg h0, h]
  rfl

variable {junk oob} in
/-- From a coherent state, a clean run returns what the flat memory does. -/
theorem runMem_of_coherent : ∀ (ops : List MemOp) {m : Memory δ} {mem : Flat},
    Coherent mem m.cache → (∀ op ∈ ops, op.Ok m.mmio) → CleanRun junk oob m ops →
    ∃ m', runMem junk oob m ops = some (flatRun mem ops, m')
  | [], m, _, _, _, _ => ⟨m, rfl⟩
  | .read a len :: ops, m, mem, h, hok, hc => by
    have hin : InRam m.mmio a len := hok _ (List.mem_cons_self ..)
    obtain ⟨v, c, hr, hcoh, hv⟩ := h.cache1Read junk oob hin.1 hin.2.1 hin.2.2.1 hc.1
    have hrun : hwaddrRead junk oob m a len =
        some (load mem a.toNat len, { m with cache := c }) := by
      rw [hwaddrRead_eq junk oob hin.isMmio, hr, Option.bind_some, hv]
    obtain ⟨m', hm'⟩ := runMem_of_coherent ops (m := { m with cache := c }) hcoh
      (fun op hop => hok op (List.mem_cons_of_mem _ hop)) (hc.2 _ _ hrun)
    exact ⟨m', by simp only [runMem, hrun, Option.bind_eq_bind, Option.bind_some, hm']; rfl⟩
  | .write a len data :: ops, m, mem, h, hok, hc => by
    obtain ⟨hin, h0⟩ : InRam m.mmio a len ∧ a ≠ 0 := hok _ (List.mem_cons_self ..)
    obtain ⟨c, hw, hcoh⟩ := h.cache1Write junk oob hin.1 hin.2.1 hin.2.2.1 hc.1 data
    have hrun : hwaddrWrite junk oob m a len data = some { m with cache := c } := by
      rw [hwaddrWrite_eq junk oob h0 hin.isMmio, hw, Option.bind_some]
    obtain ⟨m', hm'⟩ := runMem_of_coherent ops (m := { m with cache := c }) hcoh
      (fun op hop => hok op (List.mem_cons_of_mem _ hop)) (hc.2 _ hrun)
    exact ⟨m', by simp only [runMem, hrun, Option.bind_eq_bind, Option.bind_some, hm']; rfl⟩

variable {junk oob} in
/-- **The hierarchy is one flat memory in every run that replaces no dirty
line.** -/
theorem runMem_eq_flatRun (m : Memory δ) (ops : List MemOp) (hok : ∀ op ∈ ops, op.Ok m.mmio)
    (hc : CleanRun junk oob (initMemory m) ops) :
    ∃ m', runMem junk oob (initMemory m) ops = some (flatRun m.cache.dram.flat ops, m') :=
  runMem_of_coherent ops (coherent_init m.cache) hok hc

end Runs

/-- No device, zeroes in DRAM, and a `rand()` that returns 0. -/
def blankMemory : Memory Unit where
  cache := ⟨fun _ _ => ⟨false, 0, fun _ => 0⟩, fun _ _ => ⟨false, false, 0, fun _ => 0⟩,
    ⟨fun _ _ _ _ => 0, fun _ _ => ⟨fun _ => 0, 0, false⟩⟩, fun _ => 0⟩
  mmio := ⟨[], fun _ => 0, 0, ()⟩

/-! ### A dirty line that is lost -/

section Loss

variable (junk : ℕ → Byte) (oob : ℕ → ℕ → Byte)

/-- A read inside one line that both levels miss: what it returns, and what is
in the two sets afterwards. -/
theorem cache1Read_of_miss {mem : Flat} {s : Hier} (h : Lower mem s) {a : Word} {l : ℕ}
    (h4 : l ≤ 4) (hl : offsetOf a + l ≤ 64) (ha : a.toNat < hwMemSize)
    (h1 : s.hit1 a = none) (h2 : s.hit2 a = none) :
    ∃ v s', cache1Read junk oob s a l = some (v, s') ∧
      v &&& low l = load (evict oob (s.claim1 a) a mem) a.toNat l ∧
      Lower (evict oob (s.claim1 a) a mem) s' ∧
      (∀ y, ((s'.l1 (group1 a) y).valid, (s'.l1 (group1 a) y).tag) =
        if y = (s.victim1 (group1 a)).1 then (true, tag1 a)
        else ((s.l1 (group1 a) y).valid, (s.l1 (group1 a) y).tag)) ∧
      (∀ y, ((s'.l2 (group2 a) y).valid, (s'.l2 (group2 a) y).dirty, (s'.l2 (group2 a) y).tag) =
        if y = ((s.claim1 a).victim2 (group2 a)).1 then (true, false, tag2 a)
        else ((s.l2 (group2 a) y).valid, (s.l2 (group2 a) y).dirty, (s.l2 (group2 a) y).tag)) ∧
      (∀ n < hwMemSize, n / 64 ≠ a.toNat / 64 → s'.dram.flat n = s.dram.flat n) ∧
      s'.rand = ((s.claim1 a).victim2 (group2 a)).2.rand := by
  have hx := s.victim1_lt (group1 a)
  have hclaim : s.claim1 a = ({ s with rand := (s.victim1 (group1 a)).2.rand } : Hier).setL1
      (group1 a) (s.victim1 (group1 a)).1
      { s.l1 (group1 a) (s.victim1 (group1 a)).1 with valid := true, tag := tag1 a } := by
    rw [Hier.claim1, Hier.victim1_snd]
  have hlow : Lower mem (s.claim1 a) := by
    rw [hclaim]
    exact ⟨h.rows, h.ram, h.uniq, h.idle, h.data, h.dram⟩
  have hc2 : (s.claim1 a).hit2 a = none := by rw [hclaim]; exact h2
  have hl2 : (s.claim1 a).l2 = s.l2 := by rw [hclaim]; rfl
  have hdr : (s.claim1 a).dram = s.dram := by rw [hclaim]; rfl
  obtain ⟨t, hrun, hlt, hy, hs⟩ := hlow.alloc2 junk oob ha hc2
  have hline : line2 junk oob (s.claim1 a) a =
      some (((s.claim1 a).victim2 (group2 a)).1, t) := by
    rw [line2, hc2]
    exact hrun
  have hmiss := line1_of_miss h1 hline hlt hy
  -- the explicit state of L2 and of the DRAM
  obtain ⟨d, hrun', hok, hd⟩ := alloc2_spec junk oob hlow.rows ha
  have ht := (Prod.mk.inj (Option.some.inj (hrun.symm.trans hrun'))).2
  set x := (s.victim1 (group1 a)).1
  set x2 := ((s.claim1 a).victim2 (group2 a)).1
  have htx : t.l1 = (s.claim1 a).l1 := hs.l1
  set c : Cache1 := { t.l1 (group1 a) x with
    data := fun i =>
      if i < 64 then evict oob (s.claim1 a) a mem (a.toNat / 64 * 64 + i)
      else (t.l1 (group1 a) x).data i }
  have hcross : ¬ offsetOf a + l > 64 := by omega
  have hread := cache1Read.eq_1 junk oob s a l
  simp only [hmiss, Option.bind_eq_bind, Option.bind_some, hcross, ↓reduceIte] at hread
  refine ⟨_, _, hread, ?_, ⟨hlt.rows, hlt.ram, hlt.uniq, hlt.idle, hlt.data, hlt.dram⟩,
    fun y => ?_, fun y => ?_, fun n hn hne => ?_, ?_⟩
  · have hoff : offsetOf a = a.toNat % 64 := rfl
    rw [and_low_eq_word _ h4]
    refine word_congr fun i hi => ?_
    rw [byte_word _ _ _ (by omega), if_pos (by omega), if_pos (by omega), Hier.l1_setL1]
    simp only [c]
    rw [if_pos (by omega), show a.toNat / 64 * 64 + (offsetOf a + i) = a.toNat + i by omega]
  · by_cases hyx : y = x
    · rw [if_pos hyx, hyx, Hier.l1_setL1]
      simp only [c, htx, hclaim, Hier.l1_setL1]
    · rw [if_neg hyx, Hier.l1_setL1_of_ne t c fun he => hyx he.2, htx, hclaim,
        Hier.l1_setL1_of_ne _ _ fun he => hyx he.2]
  · change ((t.l2 (group2 a) y).valid, (t.l2 (group2 a) y).dirty, (t.l2 (group2 a) y).tag) = _
    by_cases hyx : y = x2
    · rw [if_pos hyx, hyx, ht, Hier.l2_setL2]
    · rw [if_neg hyx, ht, Hier.l2_setL2_of_ne _ _ fun he => hyx he.2]
      simp only [hl2]
  · change t.dram.flat n = _
    rw [ht]
    change d.flat n = _
    rw [hd n hn, if_neg fun hc => hne hc.2, hdr]
  · change t.rand = _
    rw [ht]
    rfl

/-- The `k`-th line of set 1 of L2. -/
def conflict (k : ℕ) : Word := BitVec.ofNat 32 (0x40 + k * 2 ^ 18)

theorem toNat_conflict {k : ℕ} (hk : k ≤ 16) : (conflict k).toNat = 0x40 + k * 2 ^ 18 := by
  rw [conflict, BitVec.toNat_ofNat]
  omega

/-- Its first four bytes. -/
theorem conflict_inRam {k : ℕ} (hk : k ≤ 16) :
    offsetOf (conflict k) + 4 ≤ 64 ∧ (conflict k).toNat < hwMemSize := by
  rw [offsetOf, toNat_conflict hk, hwMemSize]
  omega

/-- Ways 0 to `K` of set 1 of L2 hold lines 0 to `K`, line 0 is dirty and DRAM
has its old bytes, and L1 does not hold it. -/
structure Crowded (old : Word) (K : ℕ) (s : Hier) : Prop where
  lower : ∃ mem, Lower mem s
  rand : ∀ n, s.rand n = 0
  ways : ∀ x < 16, (s.l2 1 x).valid = decide (x ≤ K) ∧ (x ≤ K → (s.l2 1 x).tag = x) ∧
    (s.l2 1 x).dirty = decide (x = 0)
  upper : ∀ x < 8, (s.l1 1 x).valid = true → 1 ≤ (s.l1 1 x).tag ∧ (s.l1 1 x).tag ≤ 32 * K
  dram : ∀ i < 4, s.dram.flat (0x40 + i) = byte old i

variable {old : Word} {K : ℕ} {s : Hier}

theorem Crowded.hit1 (h : Crowded old K s) {k : ℕ} (hk : k ≤ 16) (hK : k = 0 ∨ K < k) :
    s.hit1 (conflict k) = none := by
  have hg : group1 (conflict k) = 1 := by rw [group1, toNat_conflict hk]; omega
  have ht : tag1 (conflict k) = 32 * k := by rw [tag1, toNat_conflict hk]; omega
  refine List.find?_eq_none.mpr fun x hx hp => ?_
  rw [hg, ht, Bool.and_eq_true, beq_iff_eq] at hp
  have := h.upper x (List.mem_range.mp hx) hp.1
  omega

theorem group2_conflict {k : ℕ} (hk : k ≤ 16) : group2 (conflict k) = 1 := by
  rw [group2, toNat_conflict hk]
  omega

theorem tag2_conflict {k : ℕ} (hk : k ≤ 16) : tag2 (conflict k) = k := by
  rw [tag2, toNat_conflict hk]
  omega

theorem Crowded.hit2 (h : Crowded old K s) {k : ℕ} (hk : k ≤ 16) (hK : K < k) :
    s.hit2 (conflict k) = none := by
  refine List.find?_eq_none.mpr fun x hx hp => ?_
  rw [group2_conflict hk, tag2_conflict hk, Bool.and_eq_true, beq_iff_eq] at hp
  obtain ⟨hv, ht, -⟩ := h.ways x (List.mem_range.mp hx)
  have hxK : x ≤ K := of_decide_eq_true (hv.symm.trans hp.1)
  have := ht hxK
  omega

/-- Choosing a victim keeps `rand()` at 0. -/
theorem rand_victim1 {g : ℕ} (h : ∀ n, s.rand n = 0) (n : ℕ) : (s.victim1 g).2.rand n = 0 := by
  unfold Hier.victim1
  split <;> exact h _

theorem rand_victim2 {g : ℕ} (h : ∀ n, s.rand n = 0) (n : ℕ) : (s.victim2 g).2.rand n = 0 := by
  unfold Hier.victim2
  split <;> exact h _

/-- The first invalid way is filled. -/
theorem victim2_of_ways {t : Hier} {g j : ℕ} (hj : j < 16)
    (h : ∀ x < 16, (t.l2 g x).valid = decide (x < j)) : (t.victim2 g).1 = j := by
  have hf : (List.range 16).find? (fun x => !(t.l2 g x).valid) = some j := by
    rw [List.find?_range_eq_some]
    refine ⟨by simp [h j hj], List.mem_range.mpr hj, ?_⟩
    intro x hx
    simp [h x (by omega), hx]
  unfold Hier.victim2
  rw [hf]

/-- When all ways are valid, `rand()` chooses. -/
theorem victim2_of_full {t : Hier} {g : ℕ} (h : ∀ x < 16, (t.l2 g x).valid = true) :
    (t.victim2 g).1 = t.rand 0 % 16 := by
  have hf : (List.range 16).find? (fun x => !(t.l2 g x).valid) = none :=
    List.find?_eq_none.mpr fun x hx => by simp [h x (List.mem_range.mp hx)]
  unfold Hier.victim2
  rw [hf]
  rfl

/-- The next line of the set fills the next way. -/
theorem Crowded.read (h : Crowded old K s) (hK : K + 1 < 16) :
    ∃ v s', cache1Read junk oob s (conflict (K + 1)) 4 = some (v, s') ∧
      Crowded old (K + 1) s' := by
  obtain ⟨mem, hlow⟩ := h.lower
  set a := conflict (K + 1)
  have hat := toNat_conflict (k := K + 1) (by omega)
  have hg2 : group2 a = 1 := group2_conflict (by omega)
  have hg1 : group1 a = 1 := by rw [group1, hat]; omega
  obtain ⟨hoff, hin⟩ := conflict_inRam (k := K + 1) (by omega)
  obtain ⟨v, s', hr, -, hlow', hl1, hl2, hd, hrand⟩ := cache1Read_of_miss junk oob hlow le_rfl hoff hin
    (h.hit1 (by omega) (by omega)) (h.hit2 (by omega) (by omega))
  have hcl2 : (s.claim1 a).l2 = s.l2 := by rw [Hier.claim1, Hier.victim1_snd]; rfl
  have hcr : ∀ n, (s.claim1 a).rand n = 0 := fun n => rand_victim1 h.rand n
  have hvic : ((s.claim1 a).victim2 1).1 = K + 1 :=
    victim2_of_ways hK fun x hx => by
      rw [hcl2, (h.ways x hx).1]
      exact decide_eq_decide.mpr (by omega)
  rw [hg2, hvic] at hl2
  rw [hg1] at hl1
  refine ⟨v, s', hr, ⟨_, hlow'⟩, fun n => ?_, fun x hx => ?_, fun x hx hv => ?_, fun i hi => ?_⟩
  · rw [hrand]
    exact rand_victim2 hcr n
  · have hy := hl2 x
    obtain ⟨hv, ht, hdy⟩ := h.ways x hx
    by_cases hxK : x = K + 1
    · rw [if_pos hxK] at hy
      simp only [Prod.mk.injEq] at hy
      refine ⟨by rw [hy.1, hxK, decide_eq_true le_rfl], fun _ => ?_, ?_⟩
      · rw [hy.2.2, tag2_conflict (by omega), hxK]
      · rw [hy.2.1, hxK, decide_eq_false (by omega)]
    · rw [if_neg hxK] at hy
      simp only [Prod.mk.injEq] at hy
      refine ⟨?_, fun hle => ?_, ?_⟩
      · rw [hy.1, hv]
        exact decide_eq_decide.mpr (by omega)
      · rw [hy.2.2, ht (by omega)]
      · rw [hy.2.1, hdy]
  · have hy := hl1 x
    split_ifs at hy with hxv
    · simp only [Prod.mk.injEq] at hy
      rw [hy.2, tag1, hat]
      omega
    · simp only [Prod.mk.injEq] at hy
      have := h.upper x hx (by rwa [← hy.1])
      rw [hy.2]
      omega
  · rw [hd _ (by simp only [hwMemSize]; omega) (by rw [hat]; omega), h.dram i hi]

/-- Line 0 is in neither level, its set is clean, and DRAM has its old bytes. -/
structure Replaced (old : Word) (s : Hier) : Prop where
  lower : ∃ mem, Lower mem s
  upper : s.hit1 (conflict 0) = none
  absent : ∀ n, n / 64 = 1 → ∀ y, ¬ s.Holds2 n y
  clean : ∀ x < 16, (s.l2 1 x).dirty = false
  dram : ∀ i < 4, s.dram.flat (0x40 + i) = byte old i

/-- The seventeenth line replaces line 0. -/
theorem Crowded.replace (h : Crowded old 15 s) :
    ∃ v s', cache1Read junk oob s (conflict 16) 4 = some (v, s') ∧ Replaced old s' := by
  obtain ⟨mem, hlow⟩ := h.lower
  have hat := toNat_conflict (k := 16) le_rfl
  have hat0 := toNat_conflict (k := 0) (by omega)
  obtain ⟨hoff, hin⟩ := conflict_inRam (k := 16) le_rfl
  obtain ⟨v, s', hr, -, hlow', hl1, hl2, hd, -⟩ := cache1Read_of_miss junk oob hlow le_rfl hoff hin
    (h.hit1 le_rfl (by omega)) (h.hit2 le_rfl (by omega))
  have hcl2 : (s.claim1 (conflict 16)).l2 = s.l2 := by rw [Hier.claim1, Hier.victim1_snd]; rfl
  have hcr : ∀ n, (s.claim1 (conflict 16)).rand n = 0 := fun n => rand_victim1 h.rand n
  have hvic : ((s.claim1 (conflict 16)).victim2 1).1 = 0 := by
    rw [victim2_of_full fun x hx => by rw [hcl2, (h.ways x hx).1]; exact decide_eq_true (by omega),
      hcr]
  rw [group2_conflict le_rfl, hvic] at hl2
  -- the set is still full, without line 0 and without a dirty line
  have hways : ∀ x < 16, (s'.l2 1 x).dirty = false ∧ (s'.l2 1 x).tag ≠ 0 := by
    intro x hx
    have hy := hl2 x
    obtain ⟨-, ht, hdy⟩ := h.ways x hx
    split_ifs at hy with hx0
    · simp only [Prod.mk.injEq] at hy
      rw [hy.2.2, tag2_conflict le_rfl]
      exact ⟨hy.2.1, by norm_num⟩
    · simp only [Prod.mk.injEq] at hy
      rw [hy.2.1, hy.2.2, hdy, ht (by omega)]
      exact ⟨decide_eq_false hx0, hx0⟩
  refine ⟨v, s', hr, ⟨_, hlow'⟩, ?_, ?_, fun x hx => (hways x hx).1, ?_⟩
  · have hg10 : group1 (conflict 0) = 1 := by rw [group1, hat0]; omega
    have hg1 : group1 (conflict 16) = 1 := by rw [group1, hat]; omega
    cases hh : s'.hit1 (conflict 0) with
    | none => rfl
    | some y =>
      obtain ⟨hy8, hv, ht⟩ := Hier.holds1_of_hit1 hh
      rw [hat0] at hv ht
      have hy := hl1 y
      rw [hg1] at hy
      split_ifs at hy with hyv
      · have htag : (s'.l1 1 y).tag = tag1 (conflict 16) := (Prod.mk.inj hy).2
        rw [tag1, hat] at htag
        exact absurd (htag.symm.trans ht) (by norm_num)
      · have h1 := h.upper y hy8 (by rw [← (Prod.mk.inj hy).1]; exact hv)
        rw [← (Prod.mk.inj hy).2] at h1
        exact absurd (ht ▸ h1.1) (by norm_num)
  · rintro n hn y ⟨hy, -, ht⟩
    rw [hn] at ht
    exact (hways y hy).2 ht
  · intro i hi
    rw [hd _ (by simp only [hwMemSize]; omega) (by rw [hat]; omega), h.dram i hi]

/-- The victim of the next read of line 0 is clean, so it reads what DRAM has. -/
theorem Replaced.read (h : Replaced old s) :
    ∃ v s', cache1Read junk oob s (conflict 0) 4 = some (v, s') ∧ v &&& low 4 = old := by
  obtain ⟨mem, hlow⟩ := h.lower
  have hat := toNat_conflict (k := 0) (by omega)
  obtain ⟨hoff, hin⟩ := conflict_inRam (k := 0) (by omega)
  have h2 : s.hit2 (conflict 0) = none := by
    cases hh : s.hit2 (conflict 0) with
    | none => rfl
    | some y => exact absurd (Hier.holds2_of_hit2 hh) (h.absent _ (by rw [hat]; omega) y)
  obtain ⟨v, s', hr, hv, -⟩ := cache1Read_of_miss junk oob hlow le_rfl hoff hin h.upper h2
  have hcl2 : (s.claim1 (conflict 0)).l2 = s.l2 := by rw [Hier.claim1, Hier.victim1_snd]; rfl
  refine ⟨v, s', hr, ?_⟩
  rw [hv, evict_of_clean, hat]
  · apply ext_bytes
    intro i hi
    rw [load, byte_word _ _ _ hi, if_pos hi, Nat.zero_mul, Nat.add_zero, ← hlow.dram (n := 64 + i)
      (by simp only [hwMemSize]; omega) fun y hy => absurd hy (h.absent _ (by omega) y)]
    exact h.dram i hi
  · rw [hcl2, group2_conflict (by omega)]
    exact h.clean _ (Hier.victim2_lt ..)

/-- A write inside a line that L1 misses. -/
theorem cache1Write_of_miss {a : Word} {l : ℕ} {data : Word} {s' : Hier} (hl : offsetOf a + l ≤ 64)
    (h1 : s.hit1 a = none) (hw : cache2WriteLine junk oob s a l data = some s') :
    cache1Write junk oob s a l data = some s' := by
  rw [cache1Write, if_neg (by omega), cache1WriteLine, cache2Write, if_neg (by omega), hw, h1]
  rfl

/-- Two writes of line 0 make it dirty, and DRAM keeps the first. -/
theorem crowded_start (s : Hier) (hr : ∀ n, s.rand n = 0) (old new : Word) :
    ∃ s1 s2, cache1Write junk oob { initCache s with dram := s.dram.initDdr3 } (conflict 0) 4 old =
        some s1 ∧ cache1Write junk oob s1 (conflict 0) 4 new = some s2 ∧ Crowded old 0 s2 := by
  set s0 : Hier := { initCache s with dram := s.dram.initDdr3 }
  have h0 : Coherent s.dram.flat s0 := coherent_init s
  set a := conflict 0
  have hat : a.toNat = 0x40 := toNat_conflict (k := 0) (by omega)
  have hg : group2 a = 1 := group2_conflict (by omega)
  have hoff : offsetOf a = 0 := by rw [offsetOf, hat]
  have hin : a.toNat < hwMemSize := by rw [hat, hwMemSize]; norm_num
  have hmiss : s0.hit2 a = none := List.find?_eq_none.mpr fun x _ => by simp [s0, initCache]
  -- the first write misses: it goes to DRAM and the line is filled
  obtain ⟨d, hw, hok, hd⟩ := dramWrite_flat junk h0.lower.rows (a := a) (l := 4) (by norm_num)
    le_rfl (by rw [hat, hwMemSize]; norm_num) old
  set t : Hier := { s0 with dram := d }
  have hvic : (t.victim2 (group2 a)).1 = 0 :=
    victim2_of_ways (by norm_num) fun x _ => rfl
  obtain ⟨d', hrun, hok', hd'⟩ := alloc2_spec junk oob (s := t) hok hin
  rw [hvic, hg] at hrun hd'
  set c : Cache2 := ⟨true, false, tag2 a, fun i =>
    if i < 64 then d'.flat (a.toNat / 64 * 64 + i) else (t.l2 1 0).data i⟩
  set s1 : Hier := ({ t with dram := d', rand := (t.victim2 1).2.rand } : Hier).setL2 1 0 c with hs1
  obtain ⟨y, s1', hw1, hlow1, hy, -⟩ := h0.lower.cache2WriteLine junk oob
    (a := a) (l := 4) (by norm_num) le_rfl (by omega) hin (fun _ => rfl) old
  have hline1 : cache2WriteLine junk oob s0 a 4 old = some s1 := by
    rw [cache2WriteLine, hmiss]
    simp only [hw, Option.bind_eq_bind, Option.bind_some]
    exact congrArg (Option.bind · fun r => some r.2) hrun
  obtain rfl : s1' = s1 := Option.some.inj (hw1.symm.trans hline1)
  have hmiss1 : ∀ {u : Hier}, u.l1 = s0.l1 → u.hit1 a = none := fun hu =>
    List.find?_eq_none.mpr fun x _ => by simp [hu, s0, initCache]
  -- the second hits: the line is dirty
  have hl2 : s1.l2 1 0 = c := by rw [hs1, Hier.l2_setL2]
  have hl2' : ∀ {x}, x ≠ 0 → s1.l2 1 x = ⟨false, false, 0, fun _ => 0⟩ := by
    intro x hx
    rw [hs1, Hier.l2_setL2_of_ne _ _ fun he => hx he.2]
    rfl
  have hhit : s1.hit2 a = some 0 := by
    cases hh : s1.hit2 a with
    | none => exact absurd hy (Hier.not_holds2_of_hit2 hh y)
    | some z =>
      obtain ⟨-, hv, -⟩ := Hier.holds2_of_hit2 hh
      rw [hat] at hv
      by_contra hz
      rw [hl2' fun h0 => hz (congrArg some h0)] at hv
      exact Bool.false_ne_true hv
  obtain ⟨z, s2, hw2, hlow2, hz, hs2⟩ := hlow1.cache2WriteLine junk oob
    (a := a) (l := 4) (by norm_num) le_rfl (by omega) hin
    (fun hn => absurd (hhit.symm.trans hn) (by simp)) new
  have hs2eq := hw2
  rw [cache2WriteLine, hhit] at hs2eq
  have hs2' := (Option.some.inj hs2eq).symm
  refine ⟨s1, s2, cache1Write_of_miss junk oob (by omega) (hmiss1 rfl) hline1,
    cache1Write_of_miss junk oob (by omega) (hmiss1 rfl) hw2, ⟨_, hlow2⟩, ?_, ?_, ?_, ?_⟩
  · intro n
    rw [hs2']
    exact rand_victim2 (s := t) (g := 1) hr n
  · intro x hx
    by_cases hx0 : x = 0
    · rw [hs2', hx0, hg, Hier.l2_setL2, hl2]
      exact ⟨rfl, fun _ => tag2_conflict (by omega), rfl⟩
    · rw [hs2', hg, Hier.l2_setL2_of_ne _ _ fun he => hx0 he.2, hl2' hx0]
      exact ⟨(decide_eq_false (by omega)).symm, fun h => absurd (Nat.le_zero.mp h) hx0,
        (decide_eq_false hx0).symm⟩
  · intro x _ hv
    rw [hs2.l1] at hv
    exact absurd hv Bool.false_ne_true
  · intro i hi
    have hdram : s2.dram = d' := by rw [hs2']; rfl
    rw [hdram, hd' _ (by simp only [hwMemSize]; omega), if_neg fun hc => by simp [t, s0, initCache] at hc]
    change d.flat (0x40 + i) = _
    rw [hd _ (by simp only [hwMemSize]; omega), hat, store_of_mem ⟨by omega, by omega⟩,
      Nat.add_sub_cancel_left]

/-- Reads of the lines after the `k`-th, in order. -/
def conflictReads (k : ℕ) : ℕ → List MemOp
  | 0 => []
  | n + 1 => .read (conflict (k + 1)) 4 :: conflictReads (k + 1) n

/-- Two writes of one line, sixteen reads of lines in its set, and a read of
the line. -/
def lossRun (old new : Word) : List MemOp :=
  .write (conflict 0) 4 old :: .write (conflict 0) 4 new ::
    (conflictReads 0 16 ++ [.read (conflict 0) 4])

theorem inRam_conflict {m : Mmio δ} (h : m.maps = []) {k : ℕ} (hk : k ≤ 16) :
    InRam m (conflict k) 4 :=
  ⟨by norm_num, le_rfl, by rw [toNat_conflict hk, hwMemSize]; omega,
    fun _ _ => isMmio_of_no_maps h _⟩

theorem ok_conflictReads {m : Mmio δ} (h : m.maps = []) : ∀ n k, k + n ≤ 16 →
    ∀ op ∈ conflictReads k n, op.Ok m
  | 0, _, _ => fun _ hop => absurd hop List.not_mem_nil
  | n + 1, k, hk => fun op hop => by
    rcases List.mem_cons.mp hop with rfl | hop
    · exact inRam_conflict h (by omega)
    · exact ok_conflictReads h n (k + 1) (by omega) op hop

theorem ok_lossRun {m : Mmio δ} (h : m.maps = []) (old new : Word) :
    ∀ op ∈ lossRun old new, op.Ok m := by
  have h0 : InRam m (conflict 0) 4 := inRam_conflict h (by omega)
  have hne : conflict 0 ≠ 0 := by decide
  intro op hop
  rcases List.mem_cons.mp hop with rfl | hop
  · exact ⟨h0, hne⟩
  rcases List.mem_cons.mp hop with rfl | hop
  · exact ⟨h0, hne⟩
  rcases List.mem_append.mp hop with hop | hop
  · exact ok_conflictReads h 16 0 (by omega) op hop
  · rw [List.mem_singleton.mp hop]
    exact h0

/-- On a flat memory the reads change nothing. -/
theorem flatRun_conflictReads (mem : Flat) (ops : List MemOp) : ∀ n k,
    ∃ vs, flatRun mem (conflictReads k n ++ ops) = vs ++ flatRun mem ops
  | 0, _ => ⟨[], rfl⟩
  | n + 1, k => by
    obtain ⟨vs, h⟩ := flatRun_conflictReads mem ops n (k + 1)
    exact ⟨load mem (conflict (k + 1)).toNat 4 :: vs, congrArg (List.cons _) h⟩

/-- On the hierarchy the last of them loses the line. -/
theorem runMem_conflictReads : ∀ n {k} {m : Memory δ}, k + n = 15 → m.mmio.maps = [] →
    Crowded old k m.cache →
    ∃ vs m', runMem junk oob m (conflictReads k (n + 1) ++ [.read (conflict 0) 4]) =
      some (vs ++ [old], m')
  | 0, k, m, hk, hm, h => by
    obtain rfl : k = 15 := hk
    obtain ⟨v, s', hr, hreplaced⟩ := h.replace junk oob
    obtain ⟨v', s'', hr', hv⟩ := hreplaced.read junk oob
    refine ⟨[v &&& low 4], { m with cache := s'' }, ?_⟩
    have h1 := hwaddrRead_eq junk oob (l := 4)
      (isMmio_of_no_maps hm (conflict 16))
    have h2 := hwaddrRead_eq junk oob (m := { m with cache := s' }) (l := 4)
      (isMmio_of_no_maps hm (conflict 0))
    rw [hr] at h1
    rw [hr'] at h2
    simp only [conflictReads, List.cons_append, List.nil_append, runMem, h1, h2, Option.bind_some,
      Option.bind_eq_bind, hv]
    rfl
  | n + 1, k, m, hk, hm, h => by
    obtain ⟨v, s', hr, h'⟩ := h.read junk oob (by omega)
    obtain ⟨vs, m', hrun⟩ := runMem_conflictReads n (k := k + 1) (m := { m with cache := s' })
      (by omega) hm h'
    refine ⟨(v &&& low 4) :: vs, m', ?_⟩
    have h1 := hwaddrRead_eq junk oob (l := 4)
      (isMmio_of_no_maps hm (conflict (k + 1)))
    rw [hr] at h1
    rw [conflictReads, List.cons_append, runMem]
    simp only [h1, Option.bind_some, Option.bind_eq_bind, hrun]
    rfl

/-- A dirty line that is replaced comes back with its old bytes. -/
theorem runMem_lossRun (m : Memory δ) (hm : m.mmio.maps = []) (hr : ∀ n, m.cache.rand n = 0)
    (old new : Word) :
    ∃ vs m', runMem junk oob (initMemory m) (lossRun old new) = some (vs ++ [old], m') := by
  obtain ⟨s1, s2, hw1, hw2, h⟩ := crowded_start junk oob m.cache hr old new
  obtain ⟨vs, m', hrun⟩ := runMem_conflictReads junk oob 15 (k := 0)
    (m := { m with cache := s2 }) rfl hm h
  refine ⟨vs, m', ?_⟩
  have hne : conflict 0 ≠ 0 := by decide
  have h1 := hwaddrWrite_eq junk oob (m := initMemory m) (l := 4)
    (v := old) hne (isMmio_of_no_maps hm (conflict 0))
  have h2 := hwaddrWrite_eq junk oob
    (m := { initMemory m with cache := s1 }) (l := 4) (v := new) hne
    (isMmio_of_no_maps hm (conflict 0))
  rw [show (initMemory m).cache = { initCache m.cache with dram := m.cache.dram.initDdr3 } from rfl,
    hw1] at h1
  rw [hw2] at h2
  simp only [lossRun, runMem, h1, h2, Option.bind_eq_bind, Option.bind_some]
  exact hrun

theorem flatRun_lossRun (mem : Flat) (old new : Word) :
    ∃ vs, flatRun mem (lossRun old new) = vs ++ [new] := by
  obtain ⟨vs, h⟩ := flatRun_conflictReads (store (store mem (conflict 0).toNat 4 old)
    (conflict 0).toNat 4 new) [.read (conflict 0) 4] 16 0
  refine ⟨vs, h.trans ?_⟩
  have hlow : low 4 = BitVec.allOnes 32 := by decide
  simp only [flatRun, load_store_self _ _ (le_refl 4), hlow, BitVec.and_allOnes]

end Loss

/-- The write of 2 over 1 is lost. -/
theorem runMem_ne_flatRun : (∀ op ∈ lossRun 1 2, op.Ok blankMemory.mmio) ∧
    ∃ vs m', runMem (fun _ => 0) (fun _ _ => 0) (initMemory blankMemory) (lossRun 1 2) =
        some (vs, m') ∧
      vs ≠ flatRun blankMemory.cache.dram.flat (lossRun 1 2) := by
  obtain ⟨vs, m', h⟩ := runMem_lossRun (fun _ => 0) (fun _ _ => 0) blankMemory rfl
    (fun _ => rfl) 1 2
  obtain ⟨vs', h'⟩ := flatRun_lossRun blankMemory.cache.dram.flat 1 2
  refine ⟨ok_lossRun rfl 1 2, _, m', h, fun he => ?_⟩
  have hlast := congrArg List.getLast? (he.trans h')
  rw [List.getLast?_concat, List.getLast?_concat] at hlast
  exact absurd hlast (by decide)

end Nemu
