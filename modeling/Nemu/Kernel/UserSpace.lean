/-
# The user address space

What the loader sees of the user page directory: `mm_malloc`, an object file,
adds page tables of its own to it, and `create_video_mapping` then replaces its
first entry by the table of `vmem.c`. So the first 4 MB lose what `mm_malloc`
put there, and no other user address is affected.

`create_video_mapping` is stated here on the entries; on memory it is
`PageTables.createVideoMapping`, and the two agree
(`run_createVideoMapping_entries`, `UserSpace.InMemory.translate`).

Key definitions: `UserSpace`, `Vm`, `Vm.createVideoMapping`, `Vm.kaddr`,
`Vm.Accessible`, `Vm.Lawful`.
Key theorems: `kaddr_createVideoMapping`, `kaddr_createVideoMapping_low`,
`run_createVideoMapping_entries`.
-/
import Nemu.Kernel.PageTables

namespace Nemu

open Bytes Paging PageTables

/-- The user directory, the table of `vmem.c`, and what `mm_malloc` keeps, its
page tables included. -/
structure UserSpace (μ : Type) where
  updir : ℕ → Word
  table : ℕ → Word
  heap : μ

/-- What the kernel has for the user directory: `mm_malloc`, the entries of its
page tables by frame and index, `va_to_pa(table)`, and `ucr3`. -/
structure Vm (μ : Type) where
  mmMalloc : Word → Word → (ℕ → Word) → μ → Word × (ℕ → Word) × μ
  uptable : μ → Word → ℕ → Word
  tablePa : Word
  ucr3 : Word

/-- The kernel's part of the directory, where physical memory is mapped. -/
def InKernel (u : Word) : Prop := KOFFSET.toNat ≤ u.toNat ∧ u.toNat < KOFFSET.toNat + physMem

instance (u : Word) : Decidable (InKernel u) := inferInstanceAs (Decidable (_ ∧ _))

/-- The video memory. -/
def Video (k : Word) : Prop := vmemAddr ≤ k.toNat ∧ k.toNat < vmemAddr + 0x10000

instance (k : Word) : Decidable (Video k) := inferInstanceAs (Decidable (_ ∧ _))

section Vm

variable {μ : Type} (v : Vm μ)

/-- `mm_malloc(va, len)`. -/
def Vm.malloc (va len : Word) (s : UserSpace μ) : Word × UserSpace μ :=
  let r := v.mmMalloc va len s.updir s.heap
  (r.1, { s with updir := r.2.1, heap := r.2.2 })

/-- The first `n` rounds of the loop over `table`, after its `memset`. -/
def videoTable : ℕ → ℕ → Word
  | 0 => fun _ => 0
  | n + 1 => Function.update (videoTable n) (vmemAddr / 2 ^ 12 % 1024 + n)
      (makePte (BitVec.ofNat 32 (vmemAddr + 4096 * n)))

/-- `create_video_mapping`. -/
def Vm.createVideoMapping (s : UserSpace μ) : UserSpace μ where
  updir := Function.update s.updir (vmemAddr / 2 ^ 22 % 1024) (makePde v.tablePa)
  table := videoTable (scrSize / 4096 + 1)
  heap := s.heap

/-- Entry `i` of the page table that a directory entry names. -/
def Vm.pte (s : UserSpace μ) (pde : Word) (i : ℕ) : Word :=
  if pageFrame pde = pageFrame v.tablePa then s.table i else v.uptable s.heap (pageFrame pde) i

/-- The memory at a user address, if it is mapped. The kernel's part of the
directory is not the program's. -/
def Vm.kaddr (s : UserSpace μ) (u : Word) : Option Word :=
  let pde := s.updir (u.toNat / 2 ^ 22)
  let pte := v.pte s pde (u.toNat / 4096 % 1024)
  if ¬ InKernel u ∧ present pde ∧ present pte then some (physical u pte) else none

/-- A request makes its range accessible at the address it returns. -/
def Vm.Accessible (Good : UserSpace μ → Prop) (va len : Word) : Prop :=
  ∀ s, Good s → ∀ i < len.toNat, v.kaddr (v.malloc va len s).2 (va + BitVec.ofNat 32 i) =
    some ((v.malloc va len s).1 + BitVec.ofNat 32 i)

/-- What the loader relies on beyond that, for the states `Good` that it can
find: what is mapped stays where it is, two user bytes are never the same byte,
and neither the page tables nor the pages of `mm_malloc` are those of
`vmem.c`. -/
structure Vm.Lawful (Good : UserSpace μ → Prop) : Prop where
  good : ∀ {va len s}, Good s → Good (v.malloc va len s).2
  keeps : ∀ {va len s u k}, Good s → v.kaddr s u = some k →
    v.kaddr (v.malloc va len s).2 u = some k
  injective : ∀ {s u w k}, Good s → v.kaddr s u = some k → v.kaddr s w = some k → u = w
  ownTables : ∀ {s} {i : ℕ}, Good s → present (s.updir i) → pageFrame (s.updir i) ≠ pageFrame v.tablePa
  ownPages : ∀ {s u k}, Good s → v.kaddr s u = some k → ¬ Video k

/-! ### The table of `vmem.c` -/

theorem videoTable_apply (j n : ℕ) : videoTable n j =
    if 160 ≤ j ∧ j < 160 + n then makePte (BitVec.ofNat 32 (vmemAddr + 4096 * (j - 160))) else 0 := by
  induction n with
  | zero =>
    rw [if_neg (by omega)]
    rfl
  | succ n ih =>
    have hstart : vmemAddr / 2 ^ 12 % 1024 = 160 := rfl
    rw [videoTable, hstart, Function.update_apply, ih]
    by_cases hj : j = 160 + n
    · rw [if_pos hj, if_pos (by omega), hj, Nat.add_sub_cancel_left]
    · rw [if_neg hj]
      exact if_congr (by omega) rfl rfl

theorem toNat_videoPte {i : ℕ} (hi : i < 16) :
    (makePte (BitVec.ofNat 32 (vmemAddr + 4096 * i))).toNat = vmemAddr + 4096 * i + 7 := by
  rw [makePte, ← makePde, toNat_makePde, BitVec.toNat_ofNat, Nat.mod_eq_of_lt]
  · simp only [vmemAddr]
    omega
  · simp only [vmemAddr]
    omega

theorem pageFrame_makePde (a : Word) : pageFrame (makePde a) = pageFrame a := by
  apply BitVec.eq_of_toNat_eq
  simp only [pageFrame, BitVec.toNat_ushiftRight, Nat.shiftRight_eq_div_pow, toNat_makePde]
  omega

theorem updir_createVideoMapping (s : UserSpace μ) (i : ℕ) :
    (v.createVideoMapping s).updir i = if i = 0 then makePde v.tablePa else s.updir i := by
  have hdir : vmemAddr / 2 ^ 22 % 1024 = 0 := rfl
  rw [Vm.createVideoMapping, hdir]
  exact Function.update_apply ..

variable {v} {Good : UserSpace μ → Prop}

theorem kaddr_eq_some {s : UserSpace μ} {u k : Word} (h : v.kaddr s u = some k) :
    ¬ InKernel u ∧ present (s.updir (u.toNat / 2 ^ 22)) ∧
      present (v.pte s (s.updir (u.toNat / 2 ^ 22)) (u.toNat / 4096 % 1024)) ∧
      physical u (v.pte s (s.updir (u.toNat / 2 ^ 22)) (u.toNat / 4096 % 1024)) = k := by
  simp only [Vm.kaddr] at h
  split_ifs at h with hc
  exact ⟨hc.1, hc.2.1, hc.2.2, Option.some.inj h⟩

/-- Above 4 MB `create_video_mapping` changes nothing. -/
theorem kaddr_createVideoMapping (hv : v.Lawful Good) {s : UserSpace μ} (hs : Good s) {u : Word}
    (hu : 2 ^ 22 ≤ u.toNat) : v.kaddr (v.createVideoMapping s) u = v.kaddr s u := by
  have hupdir : (v.createVideoMapping s).updir (u.toNat / 2 ^ 22) = s.updir (u.toNat / 2 ^ 22) := by
    rw [updir_createVideoMapping, if_neg (by omega)]
  simp only [Vm.kaddr, hupdir]
  by_cases hp : present (s.updir (u.toNat / 2 ^ 22))
  · have hpte : ∀ i, v.pte (v.createVideoMapping s) (s.updir (u.toNat / 2 ^ 22)) i =
        v.pte s (s.updir (u.toNat / 2 ^ 22)) i := fun i => by
      rw [Vm.pte, Vm.pte, if_neg (hv.ownTables hs hp), if_neg (hv.ownTables hs hp)]
      rfl
    simp only [hpte]
  · rw [if_neg fun hc => hp hc.2.1, if_neg fun hc => hp hc.2.1]

/-- Below 4 MB it leaves the video memory only. -/
theorem kaddr_createVideoMapping_low {s : UserSpace μ} {u k : Word} (hu : u.toNat < 2 ^ 22)
    (h : v.kaddr (v.createVideoMapping s) u = some k) : Video k := by
  obtain ⟨-, -, hpte, rfl⟩ := kaddr_eq_some h
  have hupdir : (v.createVideoMapping s).updir (u.toNat / 2 ^ 22) = makePde v.tablePa := by
    rw [updir_createVideoMapping, if_pos (Nat.div_eq_of_lt hu)]
  have htable : ∀ i, v.pte (v.createVideoMapping s) (makePde v.tablePa) i = videoTable 16 i :=
    fun i => by rw [Vm.pte, if_pos (pageFrame_makePde _)]; rfl
  rw [hupdir, htable, videoTable_apply] at hpte ⊢
  split_ifs at hpte ⊢ with hi
  · have hn := toNat_physical u (makePte (BitVec.ofNat 32 (vmemAddr + 4096 * (u.toNat / 4096 % 1024 - 160))))
    rw [toNat_videoPte (by omega)] at hn
    simp only [vmemAddr] at hn
    simp only [Video, vmemAddr, hn]
    omega
  · exact absurd hpte (by decide)

/-! ### The entries in memory -/

/-- The state of the user space is what is in memory: the directory and the
table of `vmem.c` are its two arrays, and the page tables of `mm_malloc` are
where the directory has them, apart from the two. -/
structure UserSpace.InMemory (v : Vm μ) (L : Layout) (s : UserSpace μ) (m : Flat) : Prop where
  tablePa : v.tablePa = BitVec.ofNat 32 L.table
  updir : ∀ i < 1024, load m (L.updir + 4 * i) 4 = s.updir i
  table : ∀ i < 1024, load m (L.table + 4 * i) 4 = s.table i
  uptable : ∀ j < 1024, present (s.updir j) → pageFrame (s.updir j) ≠ pageFrame v.tablePa →
    (s.updir j).toNat / 4096 * 4096 ≠ L.updir ∧
      ∀ i < 1024, load m ((s.updir j).toNat / 4096 * 4096 + 4 * i) 4 =
        v.uptable s.heap (pageFrame (s.updir j)) i

variable {L : Layout} {m : Flat}

theorem toNat_pageFrame (e : Word) : (pageFrame e).toNat = e.toNat / 4096 := by
  rw [pageFrame, BitVec.toNat_ushiftRight, Nat.shiftRight_eq_div_pow]

theorem toNat_tablePa (L : Layout) : (BitVec.ofNat 32 L.table).toNat = L.table :=
  toNat_phys (by have hb := L.below.2.2.2; omega)

/-- Where the entry of a page table is in memory. -/
theorem UserSpace.InMemory.pte {s : UserSpace μ} (h : s.InMemory v L m) {j i : ℕ} (hj : j < 1024)
    (hi : i < 1024) (hp : present (s.updir j)) :
    load m ((s.updir j).toNat / 4096 * 4096 + 4 * i) 4 = v.pte s (s.updir j) i := by
  by_cases hf : pageFrame (s.updir j) = pageFrame v.tablePa
  · have hal := L.aligned.2.2.2
    have hn := congrArg BitVec.toNat hf
    rw [toNat_pageFrame, toNat_pageFrame, h.tablePa, toNat_tablePa] at hn
    rw [Vm.pte, if_pos hf, hn, ← h.table i hi]
    exact congrArg (load m · 4) (by omega)
  · rw [Vm.pte, if_neg hf]
    exact (h.uptable j hj hp hf).2 i hi

/-- **What the loader finds at a user address is what the emulator's walk
finds.** -/
theorem UserSpace.InMemory.translate {s : UserSpace μ} (h : s.InMemory v L m) {u k : Word}
    (hk : v.kaddr s u = some k) : translate (PageTables.ucr3 L) u m = some k := by
  have hu := u.isLt
  have hal := L.aligned.2.2.1
  obtain ⟨-, hpde, hpte, rfl⟩ := kaddr_eq_some hk
  refine translate_of_present ?_ ((present_iff _).mp hpde) ?_ ((present_iff _).mp hpte)
  · rw [toNat_ucr3, ← h.updir _ (by omega)]
    exact congrArg (load m · 4) (by omega)
  · exact h.pte (by omega) (by omega) hpde

/-- **`create_video_mapping` on the entries is `create_video_mapping` in
memory.** -/
theorem run_createVideoMapping_entries (hk : KernelTables L m) {s : UserSpace μ}
    (h : s.InMemory v L m) : ∃ m', PageTables.createVideoMapping L (kcr3 L) m = some m' ∧
      (v.createVideoMapping s).InMemory v L m' := by
  have hb := L.below
  have hap := L.apart
  have hal := L.aligned
  obtain ⟨m', hrun, htable, hpde, hrest⟩ := hk.createVideoMapping_spec
  refine ⟨m', hrun, h.tablePa, fun i hi => ?_, fun i hi => ?_, fun j hj hp hf => ?_⟩
  · rw [updir_createVideoMapping]
    split_ifs with hi0
    · rw [hi0, h.tablePa]
      exact hpde
    · rw [← h.updir i hi]
      exact word_congr fun k hk => hrest _ (by omega) (by omega)
  · rw [htable i hi]
    exact (videoTable_apply i 16).symm
  · -- the table of `vmem.c` is the only page table that is new
    rw [updir_createVideoMapping] at hp hf ⊢
    split_ifs at hp hf ⊢ with hj0
    · exact absurd (pageFrame_makePde _) hf
    · obtain ⟨hne, hptes⟩ := h.uptable j hj hp hf
      have hne' : (s.updir j).toNat / 4096 * 4096 ≠ L.table := fun he => hf <| by
        apply BitVec.eq_of_toNat_eq
        rw [toNat_pageFrame, toNat_pageFrame, h.tablePa, toNat_tablePa]
        omega
      refine ⟨hne, fun i hi => ?_⟩
      rw [show (v.createVideoMapping s).heap = s.heap from rfl, ← hptes i hi]
      exact word_congr fun k hk => hrest _ (by omega) (by omega)

end Vm

end Nemu
