/-
# The system, and what it is for

What the processor of the emulator has around it: the TLB, the two caches, the
DRAM with its row buffers, the windows of the devices and their ports. Beside it
the reference, which has one array of bytes for all that and walks the page table
for every access. The reference also says for which runs the caches and the TLB
stay out of sight: it aborts on an access past the end of RAM, on one that brings
more than 16 lines into a set in which a line is written, and on one to a page
whose entries have changed since its last use without a load of CR3.

Each access to the system follows that to the reference.

Key definitions: `Devices`, `Host`, `System`, `Reference`, `Implements`, `Models`.
Key theorems: `Implements.read`, `Implements.write`, `Models.translate`, `busFollows_models`.
-/
import Nemu.Cpu.Buses
import Nemu.Memory.Lengths
import Nemu.Memory.WorkingSet

namespace Nemu

open Bytes Paging

/-- The ports and the interrupt controller; the devices share the MMIO space. -/
class Devices (δ : Type) where
  pioRead (addr : BitVec 16) (len : ℕ) : Mmio δ → Option (BitVec (8 * len) × Mmio δ)
  pioWrite (addr : BitVec 16) (len : ℕ) (data : Word) : Mmio δ → Option (Unit × Mmio δ)
  INTR : Mmio δ → Bool
  i8259QueryIntr : Mmio δ → Byte
  i8259AckIntr : Mmio δ → Option (Unit × Mmio δ)

/-! ### The system -/

/-- What is up to the host: the bytes of variables that are not initialised, what lies behind
the array of L1, and what `rand()` returns after `srand(0)`. -/
structure Host where
  junk : ℕ → Byte
  oob : ℕ → ℕ → Byte
  seed : ℕ → ℕ

/-- `rand()` is one sequence for the caches and the TLB. -/
def Host.phys (host : Host) (δ : Type) : Phys (Memory δ) :=
  Lengths.physOf host.junk host.oob (fun m => { m with cache := { m.cache with rand := host.seed } })
    fun m => (m.cache.drawRand.1, { m with cache := m.cache.drawRand.2 })

/-- Physical memory behind the TLB. -/
structure System (host : Host) (δ : Type) where
  mmu : Mmu (Memory δ)

namespace System

variable {host : Host} {δ : Type} (s : System host δ)

def mmio : Mmio δ := s.mmu.mem.mmio
def setMmio (d : Mmio δ) : System host δ := ⟨{ s.mmu with mem := { s.mmu.mem with mmio := d } }⟩

/-- After `init_cache`, `init_ddr3` and `init_TLB`. -/
def initial (host : Host) (m : Memory δ) : System host δ := ⟨⟨initMemory m, Paging.initTLB⟩⟩

end System

instance {host : Host} {δ : Type} [Devices δ] : Bus (System host δ) where
  lnaddrRead cr0 cr3 addr len s :=
    (Paging.lnaddrRead (host.phys δ) cr0 cr3 addr len s.mmu).map fun r => (r.1.setWidth (8 * len), ⟨r.2⟩)
  lnaddrWrite cr0 cr3 addr len data s :=
    (Paging.lnaddrWrite (host.phys δ) cr0 cr3 addr len data s.mmu).map fun u => ((), ⟨u⟩)
  initTLB s := ⟨{ s.mmu with tlb := Paging.initTLB }⟩
  pioRead addr len s := (Devices.pioRead addr len s.mmio).map fun r => (r.1, s.setMmio r.2)
  pioWrite addr len data s := (Devices.pioWrite addr len data s.mmio).map fun r => ((), s.setMmio r.2)
  INTR s := Devices.INTR s.mmio
  i8259QueryIntr s := Devices.i8259QueryIntr s.mmio
  i8259AckIntr s := (Devices.i8259AckIntr s.mmio).map fun r => ((), s.setMmio r.2)

/-! ### The reference -/

/-- One array of bytes and the devices; the lines that were used and those that were written,
and the entries with which each page was translated since the last load of CR3. -/
structure Reference (δ : Type) where
  mem : Flat
  mmio : Mmio δ
  touched : Finset ℕ
  written : Finset ℕ
  walked : Word → Option (Word × Word)

namespace Reference

variable {δ : Type}

def initial (m : Memory δ) : Reference δ := ⟨m.cache.dram.flat, m.mmio, ∅, ∅, fun _ => none⟩

/-- The lines of an access are used, if the sets have room for them. -/
def use (lines written : List ℕ) (r : Reference δ) : Option (Reference δ) :=
  let touched := r.touched ∪ lines.toFinset
  let written := r.written ∪ written.toFinset
  if Room touched written then some { r with touched, written } else none

/-- The access ends inside RAM. -/
def Inside (addr : Word) (len : ℕ) : Prop := 1 ≤ len ∧ len ≤ 4 ∧ addr.toNat + len ≤ hwMemSize

instance (addr : Word) (len : ℕ) : Decidable (Inside addr len) := inferInstanceAs (Decidable (_ ∧ _))

/-- A read of RAM. -/
def ramRead (addr : Word) (len : ℕ) (r : Reference δ) : Option (Word × Reference δ) :=
  if Inside addr len then do
    let r ← r.use (linesAt addr len) []
    return (load r.mem addr.toNat len, r)
  else none

/-- A read of the physical address space. -/
def hwRead (addr : Word) (len : ℕ) (r : Reference δ) : Option (Word × Reference δ) :=
  match isMmio r.mmio addr with
  | none => r.ramRead addr len
  | some p => do
    let (v, d) ← mmioRead r.mmio addr len p
    return (v &&& low len, { r with mmio := d })

/-- A write; at address 0 it is dropped, as in `hwaddr_write`. -/
def hwWrite (addr : Word) (len : ℕ) (data : Word) (r : Reference δ) : Option (Reference δ) :=
  if addr = 0 then some r
  else match isMmio r.mmio addr with
    | none =>
      if Inside addr len then do
        let r ← r.use (linesAt addr len) (linesAt addr len)
        return { r with mem := store r.mem addr.toNat len data }
      else none
    | some p => do
      let d ← mmioWrite r.mmio addr len data p
      return { r with mmio := d }

/-- The page tables are in RAM; nothing else of a physical memory is needed for the walk. -/
def tables : Phys (Reference δ) where
  read addr len r := if (isMmio r.mmio addr).isNone then r.ramRead addr len else none
  write _ _ _ _ := none
  srand0 := id
  rand r := (0, r)

/-- The page walk, with the entries of the last time if there was one. -/
def translate (cr0 cr3 addr : Word) (r : Reference δ) : Option (Word × Reference δ) :=
  if paging cr0 then do
    let (e, r) ← walk tables cr3 addr r
    if r.walked (addr >>> 12) = none ∨ r.walked (addr >>> 12) = some e then
      some (physical addr e.2, { r with walked := Function.update r.walked (addr >>> 12) (some e) })
    else none
  else some (addr, r)

/-- A linear read, in two parts if it crosses a page. -/
def lnaddrRead (cr0 cr3 addr : Word) (len : ℕ) (r : Reference δ) : Option (Word × Reference δ) :=
  if addr.toNat % 0x1000 + len - 1 > 0xfff then do
    let front := pageFront addr
    let (t, r) ← r.translate cr0 cr3 addr
    let (low, r) ← r.hwRead t front
    let (t, r) ← r.translate cr0 cr3 (addr + BitVec.ofNat 32 front)
    let (high, r) ← r.hwRead t (len - front)
    return (high <<< (front * 8) ||| low, r)
  else do
    let (t, r) ← r.translate cr0 cr3 addr
    r.hwRead t len

def lnaddrWrite (cr0 cr3 addr : Word) (len : ℕ) (data : Word) (r : Reference δ) : Option (Reference δ) :=
  if addr.toNat % 0x1000 + len - 1 > 0xfff then do
    let front := pageFront addr
    let (t, r) ← r.translate cr0 cr3 addr
    let r ← r.hwWrite t front (data &&& (1#32 <<< (front * 8) - 1))
    let (t, r) ← r.translate cr0 cr3 (addr + BitVec.ofNat 32 front)
    r.hwWrite t (len - front) (data >>> (8 * front))
  else do
    let (t, r) ← r.translate cr0 cr3 addr
    r.hwWrite t len data

end Reference

instance {δ : Type} [Devices δ] : Bus (Reference δ) where
  lnaddrRead cr0 cr3 addr len r := (r.lnaddrRead cr0 cr3 addr len).map fun x => (x.1.setWidth (8 * len), x.2)
  lnaddrWrite cr0 cr3 addr len data r := (r.lnaddrWrite cr0 cr3 addr len data).map ((), ·)
  initTLB r := { r with walked := fun _ => none }
  pioRead addr len r := (Devices.pioRead addr len r.mmio).map fun x => (x.1, { r with mmio := x.2 })
  pioWrite addr len data r := (Devices.pioWrite addr len data r.mmio).map fun x => ((), { r with mmio := x.2 })
  INTR r := Devices.INTR r.mmio
  i8259QueryIntr r := Devices.i8259QueryIntr r.mmio
  i8259AckIntr r := (Devices.i8259AckIntr r.mmio).map fun x => ((), { r with mmio := x.2 })

/-! ### Physical memory -/

section Physical

variable {δ : Type} (host : Host) {m : Memory δ} {r r' : Reference δ} {addr data v : Word} {len : ℕ}

/-- The caches hold the array, and lines of the run only. -/
structure Implements (m : Memory δ) (r : Reference δ) : Prop where
  coherent : Coherent r.mem m.cache
  within : m.cache.dir.Within r.touched r.written
  mmio : m.mmio = r.mmio

theorem implements_initial (m : Memory δ) : Implements (initMemory m) (Reference.initial m) :=
  ⟨coherent_init m.cache, within_init m.cache, rfl⟩

/-- What `rand()` will return does not matter. -/
theorem Implements.rand (h : Implements m r) (rand : ℕ → ℕ) : Implements { m with cache := { m.cache with rand } } r := by
  obtain ⟨⟨hl, hu⟩, hw, hm⟩ := h
  refine ⟨⟨?_, ?_⟩, within_rand hw rand, hm⟩
  · exact ⟨hl.rows, hl.ram, hl.uniq, hl.idle, hl.data, hl.dram⟩
  · exact ⟨hu.ram, hu.uniq, hu.data⟩

/-- More lines are used. -/
structure Reference.Grows (r r' : Reference δ) : Prop where
  mem : r'.mem = r.mem
  mmio : r'.mmio = r.mmio
  walked : r'.walked = r.walked
  touched : r.touched ⊆ r'.touched
  written : r.written ⊆ r'.written

theorem Reference.Grows.trans {r'' : Reference δ} (h : r.Grows r') (h' : r'.Grows r'') : r.Grows r'' :=
  ⟨h'.mem.trans h.mem, h'.mmio.trans h.mmio, h'.walked.trans h.walked, h.touched.trans h'.touched,
    h.written.trans h'.written⟩

theorem Implements.grow (h : Implements m r) (hr : r.Grows r') : Implements m r' :=
  ⟨hr.mem ▸ h.coherent, h.within.mono hr.touched hr.written, h.mmio.trans hr.mmio.symm⟩

theorem Reference.use_spec {lines written : List ℕ} (h : r.use lines written = some r') :
    r.Grows r' ∧ Room r'.touched r'.written ∧ (∀ n ∈ lines, n ∈ r'.touched) ∧ ∀ n ∈ written, n ∈ r'.written := by
  unfold Reference.use at h
  dsimp only at h
  split_ifs at h with hroom
  obtain rfl := Option.some.inj h
  refine ⟨⟨rfl, rfl, rfl, Finset.subset_union_left, Finset.subset_union_left⟩, hroom, fun n hn => ?_, fun n hn => ?_⟩
  · exact Finset.mem_union_right _ (List.mem_toFinset.mpr hn)
  · exact Finset.mem_union_right _ (List.mem_toFinset.mpr hn)

theorem Reference.ramRead_spec (h : r.ramRead addr len = some (v, r')) :
    Inside addr len ∧ v = load r.mem addr.toNat len ∧ r.use (linesAt addr len) [] = some r' := by
  unfold Reference.ramRead at h
  split_ifs at h with hin
  rcases Option.bind_eq_some_iff.mp h with ⟨r₁, huse, h⟩
  obtain ⟨rfl, rfl⟩ := Prod.mk.inj (Option.some.inj h)
  exact ⟨hin, by rw [(Reference.use_spec huse).1.mem], huse⟩

theorem Implements.ramRead (h : Implements m r) (hm : isMmio r.mmio addr = none) (hr : r.ramRead addr len = some (v, r')) :
    ∃ m', hwaddrRead host.junk host.oob m addr len = some (v, m') ∧ Implements m' r' := by
  obtain ⟨hin, rfl, huse⟩ := Reference.ramRead_spec hr
  obtain ⟨hgrow, hroom, hlines, -⟩ := Reference.use_spec huse
  have hdir : m.cache.dir.Within r'.touched r'.written := (h.grow hgrow).within
  have hclean : ReadClean m.cache addr len := readClean_of_within hdir hroom hlines (next_line hin.2.2)
  obtain ⟨v, c, hrun, hcoh, hv⟩ := h.coherent.cache1Read host.junk host.oob hin.1 hin.2.1 hin.2.2 hclean
  refine ⟨{ m with cache := c }, ?_, ⟨hgrow.mem ▸ hcoh, ?_, (h.grow hgrow).mmio⟩⟩
  · rw [hwaddrRead_eq _ _ (h.mmio ▸ hm), hrun, Option.bind_some, hv]
  · exact hdir.read hlines (next_line hin.2.2) (dir_of_cache1Read hrun)

/-- **A read** returns what the array or the device has. -/
theorem Implements.read (h : Implements m r) (hr : r.hwRead addr len = some (v, r')) :
    ∃ m', hwaddrRead host.junk host.oob m addr len = some (v, m') ∧ Implements m' r' ∧ r'.walked = r.walked := by
  unfold Reference.hwRead at hr
  cases hm : isMmio r.mmio addr with
  | none =>
    rw [hm] at hr
    obtain ⟨m', hrun, h'⟩ := h.ramRead host hm hr
    exact ⟨m', hrun, h', (Reference.use_spec (Reference.ramRead_spec hr).2.2).1.walked⟩
  | some p =>
    rw [hm] at hr
    rcases Option.bind_eq_some_iff.mp hr with ⟨⟨w, d⟩, hdev, hr⟩
    obtain ⟨rfl, rfl⟩ := Prod.mk.inj (Option.some.inj hr)
    refine ⟨{ m with mmio := d }, ?_, ⟨h.coherent, h.within, rfl⟩, rfl⟩
    unfold hwaddrRead
    rw [h.mmio, hm]
    dsimp only
    rw [hdev]
    rfl

/-- **A write.** -/
theorem Implements.write (h : Implements m r) (hr : r.hwWrite addr len data = some r') :
    ∃ m', hwaddrWrite host.junk host.oob m addr len data = some m' ∧ Implements m' r' ∧ r'.walked = r.walked := by
  unfold Reference.hwWrite at hr
  by_cases h0 : addr = 0
  · rw [if_pos h0] at hr
    obtain rfl := Option.some.inj hr
    exact ⟨m, if_pos h0, h, rfl⟩
  rw [if_neg h0] at hr
  cases hm : isMmio r.mmio addr with
  | none =>
    rw [hm] at hr
    dsimp only at hr
    split_ifs at hr with hin
    rcases Option.bind_eq_some_iff.mp hr with ⟨r₁, huse, hr⟩
    obtain rfl := Option.some.inj hr
    obtain ⟨hgrow, hroom, hlines, hwritten⟩ := Reference.use_spec huse
    have hdir : m.cache.dir.Within r₁.touched r₁.written := (h.grow hgrow).within
    have hclean : WriteClean m.cache addr len := writeClean_of_within hdir hroom hlines (next_line hin.2.2)
    obtain ⟨c, hrun, hcoh⟩ := h.coherent.cache1Write host.junk host.oob hin.1 hin.2.1 hin.2.2 hclean data
    refine ⟨{ m with cache := c }, ?_, ⟨hgrow.mem ▸ hcoh, ?_, (h.grow hgrow).mmio⟩, hgrow.walked⟩
    · rw [hwaddrWrite_eq _ _ h0 (h.mmio ▸ hm), hrun]
      rfl
    · exact hdir.write hlines hwritten (next_line hin.2.2) (dir_of_cache1Write hin.1 hin.2.1 hrun)
  | some p =>
    rw [hm] at hr
    rcases Option.bind_eq_some_iff.mp hr with ⟨d, hdev, hr⟩
    obtain rfl := Option.some.inj hr
    refine ⟨{ m with mmio := d }, ?_, ⟨h.coherent, h.within, rfl⟩, rfl⟩
    unfold hwaddrWrite
    rw [if_neg h0, h.mmio, hm]
    dsimp only
    rw [hdev]
    rfl

theorem tables_spec (h : (Reference.tables (δ := δ)).read addr len r = some (v, r')) :
    isMmio r.mmio addr = none ∧ r.ramRead addr len = some (v, r') := by
  dsimp only [Reference.tables] at h
  split_ifs at h with hm
  exact ⟨Option.isNone_iff_eq_none.mp hm, h⟩

theorem grows_of_tables (h : (Reference.tables (δ := δ)).read addr len r = some (v, r')) : r.Grows r' :=
  (Reference.use_spec (Reference.ramRead_spec (tables_spec h).2).2.2).1

/-- The two reads of a walk. -/
theorem walk_spec {M : Type} {ops : Phys M} {m m' : M} {e : Word × Word} {cr3 : Word} :
    Paging.walk ops cr3 addr m = some (e, m') ↔ ∃ m₁, ops.read (pdeAddr cr3 addr) 4 m = some (e.1, m₁) ∧
      present e.1 = true ∧ ops.read (pteAddr e.1 addr) 4 m₁ = some (e.2, m') ∧ present e.2 = true := by
  unfold Paging.walk
  constructor
  · intro h
    rcases Option.bind_eq_some_iff.mp h with ⟨⟨pde, m₁⟩, hpde, h⟩
    dsimp only at h
    split_ifs at h with hp
    rcases Option.bind_eq_some_iff.mp h with ⟨⟨pte, m₂⟩, hpte, h⟩
    dsimp only at h
    split_ifs at h with hp'
    obtain ⟨rfl, rfl⟩ := Prod.mk.inj (Option.some.inj h)
    exact ⟨m₁, hpde, hp, hpte, hp'⟩
  · rintro ⟨m₁, hpde, hp, hpte, hp'⟩
    rw [hpde, Option.bind_eq_bind, Option.bind_some]
    dsimp only
    rw [if_pos hp, hpte, Option.bind_some]
    exact if_pos hp'

theorem grows_of_walk {e : Word × Word} {cr3 : Word}
    (h : Paging.walk Reference.tables cr3 addr r = some (e, r')) : r.Grows r' := by
  obtain ⟨r₁, hpde, -, hpte, -⟩ := walk_spec.mp h
  exact (grows_of_tables hpde).trans (grows_of_tables hpte)

/-- **The walk** finds the same entries. -/
theorem Implements.walk {e : Word × Word} {cr3 : Word} (h : Implements m r)
    (hr : Paging.walk Reference.tables cr3 addr r = some (e, r')) :
    ∃ m', Paging.walk (host.phys δ) cr3 addr m = some (e, m') ∧ Implements m' r' := by
  obtain ⟨r₁, hpde, hp, hpte, hp'⟩ := walk_spec.mp hr
  obtain ⟨m₁, hpde, h₁⟩ := h.ramRead host (tables_spec hpde).1 (tables_spec hpde).2
  obtain ⟨m₂, hpte, h₂⟩ := h₁.ramRead host (tables_spec hpte).1 (tables_spec hpte).2
  exact ⟨m₂, walk_spec.mpr ⟨m₁, hpde, hp, hpte, hp'⟩, h₂⟩

end Physical

/-! ### Linear memory -/

section Linear

variable {δ : Type} (host : Host) {u : Mmu (Memory δ)} {r r' : Reference δ} {cr0 cr3 addr data v : Word} {len : ℕ}

/-- A translation in the TLB is that of a walk since the last load of CR3. -/
structure Models (u : Mmu (Memory δ)) (r : Reference δ) : Prop where
  mem : Implements u.mem r
  backed : ∀ i, (u.tlb i).valid = true → ∃ e addr, r.walked (u.tlb i).tag = some e ∧ (u.tlb i).result = physical addr e.2

/-- An entry for the page is put into the TLB. -/
theorem Models.update {e : Word × Word} (h : Models u r) (hw : r.walked (addr >>> 12) = some e) :
    Models (tlbUpdate (host.phys δ) addr (physical addr e.2) u) r := by
  have hmem : ∃ rand, (tlbUpdate (host.phys δ) addr (physical addr e.2) u).mem =
      { u.mem with cache := { u.mem.cache with rand } } := by
    unfold tlbUpdate
    dsimp only
    split
    · exact ⟨host.seed, rfl⟩
    · exact ⟨fun n => host.seed (n + 1), rfl⟩
  obtain ⟨i, htlb⟩ := @tlbUpdate_eq (Memory δ) (host.phys δ) addr (physical addr e.2) u
  obtain ⟨rand, hmem⟩ := hmem
  refine ⟨by rw [hmem]; exact h.mem.rand rand, fun j hj => ?_⟩
  rw [htlb] at hj ⊢
  by_cases hij : j = i
  · subst hij
    rw [Function.update_self]
    exact ⟨e, addr, hw, rfl⟩
  · rw [Function.update_of_ne hij] at hj ⊢
    exact h.backed j hj

/-- **A translation**, from the TLB or by a walk, is that of the walk. -/
theorem Models.translate (h : Models u r) (hr : r.translate cr0 cr3 addr = some (v, r')) :
    ∃ u', pageTranslate (host.phys δ) cr0 cr3 addr u = some (v, u') ∧ Models u' r' := by
  unfold Reference.translate at hr
  unfold pageTranslate
  by_cases hp : paging cr0 = true
  · rw [if_pos hp] at hr ⊢
    rcases Option.bind_eq_some_iff.mp hr with ⟨⟨e, r₁⟩, hwalk, hr⟩
    dsimp only at hr ⊢
    split_ifs at hr with hfresh
    obtain ⟨rfl, rfl⟩ := Prod.mk.inj (Option.some.inj hr)
    have hgrow : r.Grows r₁ := grows_of_walk hwalk
    have hbacked : ∀ i, (u.tlb i).valid = true → ∃ e' addr',
        Function.update r₁.walked (addr >>> 12) (some e) (u.tlb i).tag = some e' ∧
          (u.tlb i).result = physical addr' e'.2 := by
      intro i hi
      obtain ⟨e', addr', hw, hphys⟩ := h.backed i hi
      refine ⟨e', addr', ?_, hphys⟩
      rw [← hgrow.walked] at hw
      by_cases htag : (u.tlb i).tag = addr >>> 12
      · rw [htag] at hw ⊢
        rw [Function.update_self]
        rcases hfresh with hfresh | hfresh
        · exact absurd (hfresh.symm.trans hw) (by simp)
        · exact hfresh.symm.trans hw
      · rwa [Function.update_of_ne htag]
    by_cases hmiss : tlbTranslate u.tlb addr = noTranslation
    · obtain ⟨m, hrun, hm⟩ := h.mem.walk host hwalk
      rw [if_pos (not_eq_zero_iff.mpr hmiss), hrun]
      refine ⟨_, rfl, Models.update host (e := e) ⟨?_, hbacked⟩ (Function.update_self ..)⟩
      exact ⟨hm.coherent, hm.within, hm.mmio⟩
    · rw [if_neg fun h => hmiss (not_eq_zero_iff.mp h)]
      obtain ⟨i, hvalid, htag, hresult⟩ := tlbTranslate_hit hmiss
      obtain ⟨e', addr', hw, hphys⟩ := hbacked i hvalid
      rw [htag, Function.update_self] at hw
      obtain rfl := Option.some.inj hw
      rw [hresult, hphys, physical_of_frame]
      have hm : Implements u.mem r₁ := h.mem.grow hgrow
      exact ⟨u, rfl, ⟨hm.coherent, hm.within, hm.mmio⟩, hbacked⟩
  · rw [if_neg hp] at hr ⊢
    obtain ⟨rfl, rfl⟩ := Prod.mk.inj (Option.some.inj hr)
    exact ⟨u, rfl, h⟩

theorem Models.hwRead (h : Models u r) (hr : r.hwRead addr len = some (v, r')) :
    ∃ u', Paging.hwRead (host.phys δ) addr len u = some (v, u') ∧ Models u' r' := by
  obtain ⟨m', hrun, hm, hw⟩ := h.mem.read host hr
  refine ⟨{ u with mem := m' }, ?_, hm, ?_⟩
  · rw [Paging.hwRead, show (host.phys δ).read addr len u.mem = some (v, m') from hrun]
    rfl
  · rw [hw]
    exact h.backed

theorem Models.hwWrite (h : Models u r) (hr : r.hwWrite addr len data = some r') :
    ∃ u', Paging.hwWrite (host.phys δ) addr len data u = some u' ∧ Models u' r' := by
  obtain ⟨m', hrun, hm, hw⟩ := h.mem.write host hr
  refine ⟨{ u with mem := m' }, ?_, hm, ?_⟩
  · rw [Paging.hwWrite, show (host.phys δ).write addr len data u.mem = some m' from hrun]
    rfl
  · rw [hw]
    exact h.backed

/-- **A linear read.** -/
theorem Models.lnaddrRead (h : Models u r) (hlen : len = 1 ∨ len = 2 ∨ len = 4)
    (hr : r.lnaddrRead cr0 cr3 addr len = some (v, r')) :
    ∃ u', Paging.lnaddrRead (host.phys δ) cr0 cr3 addr len u = some (v, u') ∧ Models u' r' := by
  unfold Reference.lnaddrRead at hr
  unfold Paging.lnaddrRead
  rw [if_pos hlen]
  split_ifs at hr ⊢ with hcross
  · rcases Option.bind_eq_some_iff.mp hr with ⟨⟨t, r₁⟩, ht, hr⟩
    rcases Option.bind_eq_some_iff.mp hr with ⟨⟨low, r₂⟩, hlow, hr⟩
    rcases Option.bind_eq_some_iff.mp hr with ⟨⟨t', r₃⟩, ht', hr⟩
    rcases Option.bind_eq_some_iff.mp hr with ⟨⟨high, r₄⟩, hhigh, hr⟩
    obtain ⟨rfl, rfl⟩ := Prod.mk.inj (Option.some.inj hr)
    obtain ⟨u₁, ht, h₁⟩ := h.translate host ht
    obtain ⟨u₂, hlow, h₂⟩ := h₁.hwRead host hlow
    obtain ⟨u₃, ht', h₃⟩ := h₂.translate host ht'
    obtain ⟨u₄, hhigh, h₄⟩ := h₃.hwRead host hhigh
    refine ⟨u₄, ?_, h₄⟩
    simp only [ht, hlow, ht', hhigh, Option.bind_eq_bind, Option.bind_some]
    rfl
  · rcases Option.bind_eq_some_iff.mp hr with ⟨⟨t, r₁⟩, ht, hr⟩
    obtain ⟨u₁, ht, h₁⟩ := h.translate host ht
    obtain ⟨u₂, hread, h₂⟩ := h₁.hwRead host hr
    refine ⟨u₂, ?_, h₂⟩
    simp only [ht, hread, Option.bind_eq_bind, Option.bind_some]

/-- **A linear write.** -/
theorem Models.lnaddrWrite (h : Models u r) (hr : r.lnaddrWrite cr0 cr3 addr len data = some r') :
    ∃ u', Paging.lnaddrWrite (host.phys δ) cr0 cr3 addr len data u = some u' ∧ Models u' r' := by
  unfold Reference.lnaddrWrite at hr
  unfold Paging.lnaddrWrite
  split_ifs at hr ⊢ with hcross
  · rcases Option.bind_eq_some_iff.mp hr with ⟨⟨t, r₁⟩, ht, hr⟩
    rcases Option.bind_eq_some_iff.mp hr with ⟨r₂, hlow, hr⟩
    rcases Option.bind_eq_some_iff.mp hr with ⟨⟨t', r₃⟩, ht', hhigh⟩
    obtain ⟨u₁, ht, h₁⟩ := h.translate host ht
    obtain ⟨u₂, hlow, h₂⟩ := h₁.hwWrite host hlow
    obtain ⟨u₃, ht', h₃⟩ := h₂.translate host ht'
    obtain ⟨u₄, hhigh, h₄⟩ := h₃.hwWrite host hhigh
    refine ⟨u₄, ?_, h₄⟩
    simp only [ht, hlow, ht', hhigh, Option.bind_eq_bind, Option.bind_some]
  · rcases Option.bind_eq_some_iff.mp hr with ⟨⟨t, r₁⟩, ht, hwrite⟩
    obtain ⟨u₁, ht, h₁⟩ := h.translate host ht
    obtain ⟨u₂, hwrite, h₂⟩ := h₁.hwWrite host hwrite
    refine ⟨u₂, ?_, h₂⟩
    simp only [ht, hwrite, Option.bind_eq_bind, Option.bind_some]

/-- A device acts. -/
theorem Models.setMmio (h : Models u r) (d : Mmio δ) :
    Models { u with mem := { u.mem with mmio := d } } { r with mmio := d } :=
  ⟨⟨h.mem.coherent, h.mem.within, rfl⟩, h.backed⟩

/-- CR3 is loaded. -/
theorem Models.initTLB (h : Models u r) : Models { u with tlb := Paging.initTLB } { r with walked := fun _ => none } :=
  ⟨⟨h.mem.coherent, h.mem.within, h.mem.mmio⟩, fun _ hi => nomatch hi⟩

end Linear

/-! ### The bus -/

section Buses

variable {δ : Type} {host : Host}

/-- The system and its reference. -/
def SystemModels (s : System host δ) (r : Reference δ) : Prop := Models s.mmu r

theorem models_initial (m : Memory δ) : SystemModels (System.initial host m) (Reference.initial m) :=
  ⟨implements_initial m, fun _ hi => nomatch hi⟩

/-- What a device does depends on the devices only. -/
theorem device_follows {α β : Type} {f : Mmio δ → Option (α × Mmio δ)} (g : α → β) {s : System host δ} {r r' : Reference δ}
    {v : β} (h : SystemModels s r) (hr : (f r.mmio).map (fun x => (g x.1, ({ r with mmio := x.2 } : Reference δ))) = some (v, r')) :
    ∃ s', (f s.mmio).map (fun x => (g x.1, s.setMmio x.2)) = some (v, s') ∧ SystemModels s' r' := by
  obtain ⟨x, hx, hr⟩ := Option.map_eq_some_iff.mp hr
  obtain ⟨rfl, rfl⟩ := Prod.mk.inj hr
  refine ⟨s.setMmio x.2, ?_, h.setMmio x.2⟩
  rw [System.mmio, h.mem.mmio, hx]
  rfl

/-- **Each access** to the system follows that to the reference. -/
instance busFollows_models [Devices δ] : BusFollows (P := System host δ) (Q := Reference δ) SystemModels where
  lnaddrRead h hlen hr := by
    obtain ⟨⟨v, r'⟩, hread, heq⟩ := Option.map_eq_some_iff.mp hr
    obtain ⟨rfl, rfl⟩ := Prod.mk.inj heq
    obtain ⟨u', hrun, h'⟩ := Models.lnaddrRead host h hlen hread
    exact ⟨⟨u'⟩, Option.map_eq_some_iff.mpr ⟨_, hrun, rfl⟩, h'⟩
  lnaddrWrite h hr := by
    obtain ⟨r', hwrite, heq⟩ := Option.map_eq_some_iff.mp hr
    obtain ⟨-, rfl⟩ := Prod.mk.inj heq
    obtain ⟨u', hrun, h'⟩ := Models.lnaddrWrite host h hwrite
    exact ⟨⟨u'⟩, Option.map_eq_some_iff.mpr ⟨_, hrun, rfl⟩, h'⟩
  initTLB h := h.initTLB
  pioRead h hr := device_follows id h hr
  pioWrite h hr := device_follows (fun _ => ()) h hr
  INTR h := congrArg Devices.INTR h.mem.mmio
  i8259QueryIntr h := congrArg Devices.i8259QueryIntr h.mem.mmio
  i8259AckIntr h hr := device_follows (fun _ => ()) h hr

end Buses

end Nemu
