/-
# Working sets

Whether a dirty line is ever replaced depends on `rand()`, but not for a run
that leaves the sets of its written lines a free way. If each line that is
written shares its set of L2 with at most fifteen other lines of the run, no
dirty line is replaced, whatever `rand()` returns, and the memory is flat
(`runMem_flat_of_fits`); so it is for every run inside a window of 4 MiB
(`fits_of_window`). The run of `runMem_ne_flatRun` has one line more.

Key definitions: `linesAt`, `FitsWays`, `Dir.Within`.
Key theorems: `Dir.Within.clean`, `cleanRun_of_fits`, `runMem_flat_of_fits`.
-/
import Nemu.Memory.Directory

namespace Nemu

open Bytes SetAssoc

/-! ### The lines of a run -/

/-- The lines of an access. -/
def linesAt (a : Word) (len : ℕ) : List ℕ :=
  if 64 < offsetOf a + len then [a.toNat / 64, a.toNat / 64 + 1] else [a.toNat / 64]

def MemOp.lines : MemOp → List ℕ
  | .read a len => linesAt a len
  | .write a len _ => linesAt a len

def MemOp.written : MemOp → List ℕ
  | .read _ _ => []
  | .write a len _ => linesAt a len

/-- The lines of a run. -/
def touched (ops : List MemOp) : Finset ℕ := (ops.flatMap MemOp.lines).toFinset

def writtenLines (ops : List MemOp) : Finset ℕ := (ops.flatMap MemOp.written).toFinset

/-- In the set of each line of `W` there are at most 16 lines of `T`. -/
def Room (T W : Finset ℕ) : Prop := ∀ n ∈ W, (T.filter fun m => m % 4096 = n % 4096).card ≤ 16

instance decidableRoom (T W : Finset ℕ) : Decidable (Room T W) := inferInstanceAs (Decidable (∀ n ∈ W, _ ≤ 16))

/-- Each line that is written shares its set with at most fifteen others. -/
def FitsWays (ops : List MemOp) : Prop := Room (touched ops) (writtenLines ops)

instance decidableFitsWays (ops : List MemOp) : Decidable (FitsWays ops) := decidableRoom _ _

theorem mem_linesAt (a : Word) (len : ℕ) : a.toNat / 64 ∈ linesAt a len := by
  unfold linesAt
  split <;> simp

theorem next_mem_linesAt {a : Word} {len : ℕ} (h : 64 < offsetOf a + len) : a.toNat / 64 + 1 ∈ linesAt a len := by
  rw [linesAt, if_pos h]
  simp

/-- The second line of an access to RAM. -/
theorem next_line {a : Word} {len : ℕ} (hram : a.toNat + len ≤ hwMemSize) :
    (blockOf a + 64).toNat / 64 = a.toNat / 64 + 1 := by
  simp only [hwMemSize] at hram
  rw [toNat_next (by omega)]
  omega

/-! ### The directory of a run -/

namespace Dir

variable {T W : Finset ℕ} {d d' : Dir} {a : Word} {len : ℕ}

/-- L2 holds lines of `T` only, and what is dirty is in a set of `W`. -/
structure Within (T W : Finset ℕ) (d : Dir) : Prop where
  uniq : SetAssoc.Unique ways2 d.l2
  held : ∀ g, ∀ x ∈ ways2, ∀ t, d.l2 g x = some t → 4096 * t + g ∈ T
  idle : ∀ g x, d.l2 g x = none → d.dirty g x = false
  dirty : ∀ g x, d.dirty g x = true → ∃ n ∈ W, n % 4096 = g

/-- More lines. -/
theorem Within.mono {T' W' : Finset ℕ} (h : d.Within T W) (hT : T ⊆ T') (hW : W ⊆ W') : d.Within T' W' := by
  refine ⟨h.uniq, fun g x hx t ht => hT (h.held g x hx t ht), h.idle, fun g x hd => ?_⟩
  obtain ⟨n, hn, hg⟩ := h.dirty g x hd
  exact ⟨n, hW hn, hg⟩

theorem Within.congr (h : d.Within T W) (h2 : d'.l2 = d.l2) (hd : d'.dirty = d.dirty) : d'.Within T W :=
  ⟨h2 ▸ h.uniq, h2 ▸ h.held, h2 ▸ hd ▸ h.idle, hd ▸ h.dirty⟩

/-- **What a miss replaces is clean**: where something may be dirty, a way is free. -/
theorem Within.clean (h : d.Within T W) (hroom : Room T W) (ha : a.toNat / 64 ∈ T) (hm : d.hit2 a = none) :
    d.dirty (group2 a) (d.way2 (group2 a)) = false := by
  by_contra hdirty
  obtain ⟨n, hn, hg⟩ := h.dirty _ _ (by simpa using hdirty)
  have hcard : (T.filter fun m => m % 4096 = group2 a).card ≤ 16 := hg ▸ hroom n hn
  have hfree : (free ways2 d.l2 (group2 a)).isSome = true := by
    apply h.uniq.free_isSome List.nodup_range (T := (T.filter fun m => m % 4096 = group2 a).image (· / 4096))
    · intro x hx t ht
      have hmem : 4096 * t + group2 a ∈ T := h.held _ x hx t ht
      have hlt : group2 a < 4096 := Nat.mod_lt _ (by norm_num)
      exact Finset.mem_image.mpr ⟨_, Finset.mem_filter.mpr ⟨hmem, by omega⟩, by omega⟩
    · exact Finset.mem_image.mpr ⟨_, Finset.mem_filter.mpr ⟨ha, rfl⟩, rfl⟩
    · exact hm
    · exact Finset.card_image_le.trans hcard
  obtain ⟨x, hx⟩ := Option.isSome_iff_exists.mp hfree
  have hway : d.way2 (group2 a) = x := by rw [way2, hx, Option.getD_some]
  rw [hway] at hdirty
  exact hdirty (h.idle _ _ (isNone_of_free hx))

theorem Within.fill2 (h : d.Within T W) (ha : a.toNat / 64 ∈ T) (hm : d.hit2 a = none) : (d.fill2 a).Within T W := by
  have hx := d.way2_mem (group2 a)
  set x := d.way2 (group2 a) with hway
  have hline : 4096 * tag2 a + group2 a = a.toNat / 64 := Nat.div_add_mod _ _
  have hl2 : (d.fill2 a).l2 = install d.l2 (group2 a) x (tag2 a) := rfl
  have hdirty : (d.fill2 a).dirty = put d.dirty (group2 a) x false := rfl
  refine ⟨h.uniq.install hm _, fun g y hy t ht => ?_, fun g y hn => ?_, fun g y hd => ?_⟩
  · rw [hl2, install] at ht
    by_cases he : g = group2 a ∧ y = x
    · rcases he with ⟨rfl, rfl⟩
      obtain rfl : tag2 a = t := by simpa using ht
      rwa [hline]
    · rw [put_of_ne he] at ht
      exact h.held g y hy t ht
  · rw [hl2, install] at hn
    rw [hdirty]
    by_cases he : g = group2 a ∧ y = x
    · rcases he with ⟨rfl, rfl⟩
      exact put_self _ _
    · rw [put_of_ne he] at hn ⊢
      exact h.idle g y hn
  · rw [hdirty] at hd
    by_cases he : g = group2 a ∧ y = x
    · rcases he with ⟨rfl, rfl⟩
      simp at hd
    · rw [put_of_ne he] at hd
      exact h.dirty g y hd

theorem Within.serve2 (h : d.Within T W) (ha : a.toNat / 64 ∈ T) (hs : d.serve2 a = some d') : d'.Within T W := by
  rcases serve2_cases hs with ⟨-, rfl⟩ | ⟨hm, -, rfl⟩
  · exact h
  · exact h.fill2 ha hm

theorem Within.serve1 (h : d.Within T W) (ha : a.toNat / 64 ∈ T) (hs : d.serve1 a = some d') : d'.Within T W := by
  unfold Dir.serve1 at hs
  split_ifs at hs
  · obtain rfl := Option.some.inj hs
    exact h
  · have hfill : (d.fill1 a).Within T W := h.congr (l2_drawn1 d _) (dirty_drawn1 d _)
    exact hfill.serve2 ha hs

theorem Within.writeLine (h : d.Within T W) (ha : a.toNat / 64 ∈ T) (hw : a.toNat / 64 ∈ W)
    (hs : d.writeLine a = some d') : d'.Within T W := by
  unfold Dir.writeLine at hs
  split at hs
  · next x hx =>
    obtain rfl := Option.some.inj hs
    have hheld := (mem_of_find hx).2
    refine ⟨h.uniq, h.held, fun g y hn => ?_, fun g y hd => ?_⟩
    · have he : ¬(g = group2 a ∧ y = x) := by
        rintro ⟨rfl, rfl⟩
        exact absurd (hheld.symm.trans hn) (by simp)
      exact (put_of_ne he).trans (h.idle g y hn)
    · by_cases he : g = group2 a ∧ y = x
      · exact ⟨_, hw, he.1.symm⟩
      · exact h.dirty g y ((put_of_ne he).symm.trans hd)
  · exact h.serve2 ha hs

theorem Within.read (h : d.Within T W) (hT : ∀ n ∈ linesAt a len, n ∈ T)
    (hnext : (blockOf a + 64).toNat / 64 = a.toNat / 64 + 1) (hs : d.read a len = some d') : d'.Within T W := by
  rcases Option.bind_eq_some_iff.mp hs with ⟨d₁, h₁, h₂⟩
  have hd₁ : d₁.Within T W := h.serve1 (hT _ (mem_linesAt a len)) h₁
  split_ifs at h₂ with hx
  · exact hd₁.serve1 (hnext ▸ hT _ (next_mem_linesAt hx)) h₂
  · obtain rfl := Option.some.inj h₂
    exact hd₁

theorem Within.write (h : d.Within T W) (hT : ∀ n ∈ linesAt a len, n ∈ T) (hW : ∀ n ∈ linesAt a len, n ∈ W)
    (hnext : (blockOf a + 64).toNat / 64 = a.toNat / 64 + 1) (hs : d.write a len = some d') : d'.Within T W := by
  rcases Option.bind_eq_some_iff.mp hs with ⟨d₁, h₁, h₂⟩
  have hline := mem_linesAt a len
  have hd₁ : d₁.Within T W := h.writeLine (hT _ hline) (hW _ hline) h₁
  split_ifs at h₂ with hx
  · have hline' := next_mem_linesAt hx
    exact hd₁.writeLine (hnext ▸ hT _ hline') (hnext ▸ hW _ hline') h₂
  · obtain rfl := Option.some.inj h₂
    exact hd₁

end Dir

/-! ### No dirty line is replaced -/

section Clean

variable {T W : Finset ℕ} {s : Hier} {a : Word} {len : ℕ}

theorem within_init (s : Hier) : (initCache s).dir.Within T W := by
  refine ⟨unique_empty, fun g x _ t ht => ?_, fun g x _ => rfl, fun g x hd => ?_⟩
  · exact absurd ht (by simp [Hier.dir, initCache])
  · exact absurd hd (by simp [Hier.dir, initCache])

/-- What `rand()` will return does not matter. -/
theorem within_rand (h : s.dir.Within T W) (rand : ℕ → ℕ) : ({ s with rand } : Hier).dir.Within T W := h.congr rfl rfl

theorem victimClean_of_within (h : s.dir.Within T W) (hroom : Room T W) (ha : a.toNat / 64 ∈ T) : VictimClean s a := by
  intro hm
  rw [← Hier.way2_dir]
  exact h.clean hroom ha (by rwa [Hier.hit2_dir])

theorem lineClean_of_within (h : s.dir.Within T W) (hroom : Room T W) (ha : a.toNat / 64 ∈ T) : LineClean s a := by
  intro _
  rw [Hier.victim1_snd]
  exact victimClean_of_within (within_rand h _) hroom ha

theorem readClean_of_within (h : s.dir.Within T W) (hroom : Room T W) (hT : ∀ n ∈ linesAt a len, n ∈ T)
    (hnext : (blockOf a + 64).toNat / 64 = a.toNat / 64 + 1) : ReadClean s a len := by
  refine ⟨lineClean_of_within h hroom (hT _ (mem_linesAt a len)), fun hx => ?_⟩
  rw [Hier.draw1_eq]
  exact lineClean_of_within (within_rand h _) hroom (hnext ▸ hT _ (next_mem_linesAt hx))

theorem writeClean_of_within (h : s.dir.Within T W) (hroom : Room T W) (hT : ∀ n ∈ linesAt a len, n ∈ T)
    (hnext : (blockOf a + 64).toNat / 64 = a.toNat / 64 + 1) : WriteClean s a len := by
  refine ⟨victimClean_of_within h hroom (hT _ (mem_linesAt a len)), fun hx => ?_⟩
  rw [Hier.draw2_eq]
  exact victimClean_of_within (within_rand h _) hroom (hnext ▸ hT _ (next_mem_linesAt hx))

end Clean

/-! ### Runs -/

section Runs

variable {δ : Type} {T W : Finset ℕ} {junk : ℕ → Byte} {oob : ℕ → ℕ → Byte}

/-- From a directory inside `T`, by induction on the run. -/
theorem cleanRun_of_within (hroom : Room T W) : ∀ {ops : List MemOp} {m : Memory δ}, m.cache.dir.Within T W →
    (∀ op ∈ ops, op.Ok m.mmio) → (∀ op ∈ ops, ∀ n ∈ op.lines, n ∈ T) → (∀ op ∈ ops, ∀ n ∈ op.written, n ∈ W) →
    CleanRun junk oob m ops
  | [], _, _, _, _, _ => trivial
  | .read a len :: ops, m, h, hok, hT, hW => by
    have hin : InRam m.mmio a len := hok _ List.mem_cons_self
    have hlines : ∀ n ∈ linesAt a len, n ∈ T := hT _ List.mem_cons_self
    refine ⟨readClean_of_within h hroom hlines (next_line hin.2.2.1), fun v m' hrun => ?_⟩
    rw [hwaddrRead_eq junk oob hin.isMmio] at hrun
    rcases Option.bind_eq_some_iff.mp hrun with ⟨⟨v', c⟩, hr, hm'⟩
    obtain ⟨-, rfl⟩ := Prod.mk.inj (Option.some.inj hm')
    exact cleanRun_of_within hroom (h.read hlines (next_line hin.2.2.1) (dir_of_cache1Read hr))
      (fun op hop => hok op (List.mem_cons_of_mem _ hop)) (fun op hop => hT op (List.mem_cons_of_mem _ hop))
      fun op hop => hW op (List.mem_cons_of_mem _ hop)
  | .write a len data :: ops, m, h, hok, hT, hW => by
    obtain ⟨hin, h0⟩ : InRam m.mmio a len ∧ a ≠ 0 := hok _ List.mem_cons_self
    have hlines : ∀ n ∈ linesAt a len, n ∈ T := hT _ List.mem_cons_self
    refine ⟨writeClean_of_within h hroom hlines (next_line hin.2.2.1), fun m' hrun => ?_⟩
    rw [hwaddrWrite_eq junk oob h0 hin.isMmio] at hrun
    rcases Option.bind_eq_some_iff.mp hrun with ⟨c, hw, hm'⟩
    obtain rfl := Option.some.inj hm'
    have hdir := dir_of_cache1Write hin.1 hin.2.1 hw
    exact cleanRun_of_within hroom (h.write hlines (hW _ List.mem_cons_self) (next_line hin.2.2.1) hdir)
      (fun op hop => hok op (List.mem_cons_of_mem _ hop)) (fun op hop => hT op (List.mem_cons_of_mem _ hop))
      fun op hop => hW op (List.mem_cons_of_mem _ hop)

theorem cleanRun_of_fits {m : Memory δ} {ops : List MemOp} (hok : ∀ op ∈ ops, op.Ok m.mmio) (hfits : FitsWays ops) :
    CleanRun junk oob (initMemory m) ops := by
  refine cleanRun_of_within hfits (within_init m.cache) hok (fun op hop n hn => ?_) fun op hop n hn => ?_
  · exact List.mem_toFinset.mpr (List.mem_flatMap.mpr ⟨op, hop, hn⟩)
  · exact List.mem_toFinset.mpr (List.mem_flatMap.mpr ⟨op, hop, hn⟩)

/-- **The memory is flat** for every run that fits, whatever `rand()` returns. -/
theorem runMem_flat_of_fits (m : Memory δ) (ops : List MemOp) (hok : ∀ op ∈ ops, op.Ok m.mmio) (hfits : FitsWays ops) :
    ∃ m', runMem junk oob (initMemory m) ops = some (flatRun m.cache.dram.flat ops, m') :=
  runMem_of_coherent ops (coherent_init m.cache) hok (cleanRun_of_fits hok hfits)

end Runs

theorem inRam_blank {a : Word} {len : ℕ} (h : 1 ≤ len ∧ len ≤ 4 ∧ a.toNat + len ≤ hwMemSize) : InRam blankMemory.mmio a len :=
  ⟨h.1, h.2.1, h.2.2, fun _ _ => isMmio_of_no_maps rfl _⟩

/-- Two writes to a line and a read across its start. -/
theorem runMem_flat_of_fits_twice : ∃ m',
    runMem (fun _ => 0) (fun _ _ => 0) (initMemory blankMemory) [.write 0x40 4 1, .write 0x40 4 2, .read 0x3e 4] =
      some (flatRun blankMemory.cache.dram.flat [.write 0x40 4 1, .write 0x40 4 2, .read 0x3e 4], m') := by
  refine runMem_flat_of_fits blankMemory _ (fun op hop => ?_) (by decide)
  simp only [List.mem_cons, List.not_mem_nil, or_false] at hop
  rcases hop with rfl | rfl | rfl
  · exact ⟨inRam_blank (by decide), by decide⟩
  · exact ⟨inRam_blank (by decide), by decide⟩
  · exact inRam_blank (by decide)

/-- Writes and reads of a line, reads of seventeen lines of another set, twice the first of them, which is replaced, and
a read of the line that was written. -/
def replacingClean : List MemOp :=
  [.write 0x40 4 0x11223344, .write 0x41 1 0x55, .read 0x3e 4] ++
    (List.range 18).map (fun k => .read (BitVec.ofNat 32 (0x80 + k % 17 * 2 ^ 18)) 4) ++ [.write 0x3f 2 0x6677, .read 0x40 4]

/-- What the reads of `runMem_eq_flatRun` return there. -/
theorem runMem_eq_flatRun_replacing : ∃ m', runMem (fun _ => 0) (fun _ _ => 0) (initMemory blankMemory) replacingClean =
    some (0x55440000 :: List.replicate 18 0 ++ [0x11225566], m') := by
  have hline : ∀ k, (BitVec.ofNat 32 (0x80 + k % 17 * 2 ^ 18) : Word).toNat + 4 ≤ hwMemSize := by
    intro k
    rw [BitVec.toNat_ofNat, hwMemSize]
    omega
  have hok : ∀ op ∈ replacingClean, op.Ok blankMemory.mmio := by
    simp only [replacingClean, List.forall_mem_append, List.forall_mem_map, List.forall_mem_cons, MemOp.Ok]
    exact ⟨⟨⟨⟨inRam_blank (by decide), by decide⟩, ⟨inRam_blank (by decide), by decide⟩, inRam_blank (by decide),
      List.forall_mem_nil _⟩, fun k _ => inRam_blank ⟨by norm_num, le_rfl, hline k⟩⟩,
      ⟨inRam_blank (by decide), by decide⟩, inRam_blank (by decide), List.forall_mem_nil _⟩
  have hflat : flatRun blankMemory.cache.dram.flat replacingClean = 0x55440000 :: List.replicate 18 0 ++ [0x11225566] := by
    decide +kernel
  exact hflat ▸ runMem_eq_flatRun blankMemory replacingClean hok (cleanRun_of_fits hok (by decide +kernel))

/-- **A window of 4 MiB** has 16 lines of each set. -/
theorem room_of_window {T W : Finset ℕ} {n : ℕ} (h : ∀ k ∈ T, n ≤ k ∧ k < n + 65536) : Room T W := by
  intro j _
  have hle : (T.filter fun k => k % 4096 = j % 4096).card ≤ (Finset.range 16).card := by
    apply Finset.card_le_card_of_injOn fun k => (k - n) / 4096
    · intro k hk
      obtain ⟨hk, -⟩ := Finset.mem_filter.mp hk
      have hk' := h k hk
      have hlt : (k - n) / 4096 < 16 := by omega
      exact Finset.mem_coe.mpr (Finset.mem_range.mpr hlt)
    · intro k hk k' hk' heq
      obtain ⟨hk, hmod⟩ := Finset.mem_filter.mp hk
      obtain ⟨hk', hmod'⟩ := Finset.mem_filter.mp hk'
      have h₁ := h k hk
      have h₂ := h k' hk'
      dsimp only at heq
      omega
  rwa [Finset.card_range] at hle

/-- So every run inside of it fits. -/
theorem fits_of_window {ops : List MemOp} {n : ℕ} (h : ∀ op ∈ ops, ∀ k ∈ op.lines, n ≤ k ∧ k < n + 65536) : FitsWays ops := by
  refine room_of_window (n := n) fun k hk => ?_
  obtain ⟨op, hop, hk⟩ := List.mem_flatMap.mp (List.mem_toFinset.mp hk)
  exact h op hop k hk

end Nemu
