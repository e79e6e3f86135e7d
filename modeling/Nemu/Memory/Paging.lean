/-
# Address translation

`TLB.c` and the paging part of `memory.c`, over any physical memory: its reads,
its writes, and the random numbers that replacement draws (`TLB_update` also
restarts them). A translation that is found in the TLB is that of an earlier
walk, with the page offset of the present address. So in a run in which no page
is translated with entries that changed since the last load of CR3, a
translation is what the walk of the two-level table gives.

Key definitions: `Phys`, `Tlb`, `tlbTranslate`, `tlbUpdate`, `walk`,
`pageTranslate`, `lnaddrRead`, `lnaddrWrite`, `MmuRun`.
Key theorems: `physical_of_frame`, `MmuRun.inv`, `pageTranslate_eq_walk`.
-/
import Nemu.Lib.Bytes
import Mathlib.Data.List.FinRange
import Mathlib.Logic.Function.Basic

namespace Nemu

open Bytes

namespace Paging

/-- Physical memory: `hwaddr_read`, `hwaddr_write`, `srand(0)` and `rand()`. -/
structure Phys (M : Type) where
  read : Word → ℕ → M → Option (Word × M)
  write : Word → ℕ → Word → M → Option M
  srand0 : M → M
  rand : M → ℕ × M

/-! ### The TLB -/

/-- `struct TLB`; the tag is the upper part of `addr`. -/
structure TlbEntry where
  valid : Bool
  addr : Word
  result : Word

def TlbEntry.tag (e : TlbEntry) : Word := e.addr >>> 12

abbrev Tlb := Fin 64 → TlbEntry

/-- `init_TLB`. -/
def initTLB : Tlb := fun _ => ⟨false, 0, 0⟩

/-- The result that stands for a miss. -/
def noTranslation : Word := 0xffffffff

/-- `TLB_translate`. -/
def tlbTranslate (t : Tlb) (addr : Word) : Word :=
  match (List.finRange 64).find? fun i => (t i).valid && (t i).tag == addr >>> 12 with
  | some i => (t i).result
  | none => noTranslation

/-- The linear-address part of the machine: memory and the TLB. -/
structure Mmu (M : Type) where
  mem : M
  tlb : Tlb

section Mmu

variable {M : Type} (ops : Phys M)

/-- `TLB_update`: the first entry that is not valid, or a random one. -/
def tlbUpdate (addr hwaddr : Word) (s : Mmu M) : Mmu M :=
  let s := { s with mem := ops.srand0 s.mem }
  match (List.finRange 64).find? fun i => !(s.tlb i).valid with
  | some i => { s with tlb := Function.update s.tlb i ⟨true, addr, hwaddr⟩ }
  | none =>
    let r := ops.rand s.mem
    { mem := r.2, tlb := Function.update s.tlb (Fin.ofNat 64 r.1) ⟨true, addr, hwaddr⟩ }

/-! ### The page walk -/

/-- `present`. -/
def present (entry : Word) : Bool := entry.getLsbD 0

/-- `page_frame`, and `page_directory_base`. -/
def pageFrame (entry : Word) : Word := entry >>> 12

/-- The address of the page directory entry. -/
def pdeAddr (cr3 addr : Word) : Word := pageFrame cr3 <<< 12 ||| (addr >>> 22) <<< 2

/-- The address of the page table entry. -/
def pteAddr (pde addr : Word) : Word := pageFrame pde <<< 12 ||| (addr >>> 12 &&& 0x3ff#32) <<< 2

/-- The two entries of an address; both are asserted to be present. -/
def walk (cr3 addr : Word) (m : M) : Option ((Word × Word) × M) := do
  let r ← ops.read (pdeAddr cr3 addr) 4 m
  if present r.1 then
    let r' ← ops.read (pteAddr r.1 addr) 4 r.2
    if present r'.1 then some ((r.1, r'.1), r'.2) else none
  else none

/-- The physical address: the page offset in the frame. -/
def physical (addr pte : Word) : Word := addr &&& 0xfff#32 ||| pageFrame pte <<< 12

/-- `cr0.paging == 1 && cr0.protect_enable == 1`. -/
def paging (cr0 : Word) : Bool := cr0.getLsbD 31 && cr0.getLsbD 0

/-- `page_translate`. -/
def pageTranslate (cr0 cr3 addr : Word) (s : Mmu M) : Option (Word × Mmu M) :=
  if paging cr0 then
    let hwaddr := tlbTranslate s.tlb addr
    if ~~~hwaddr = 0 then do
      let r ← walk ops cr3 addr s.mem
      let hwaddr := physical addr r.1.2
      return (hwaddr, tlbUpdate ops addr hwaddr { s with mem := r.2 })
    else some (hwaddr &&& 0xfffff000#32 ||| addr &&& 0xfff#32, s)
  else some (addr, s)

/-! ### Linear accesses -/

/-- An access of physical memory by a machine. -/
def hwRead (addr : Word) (len : ℕ) (s : Mmu M) : Option (Word × Mmu M) := do
  let r ← ops.read addr len s.mem
  return (r.1, { s with mem := r.2 })

def hwWrite (addr : Word) (len : ℕ) (data : Word) (s : Mmu M) : Option (Mmu M) := do
  let m ← ops.write addr len data s.mem
  return { s with mem := m }

/-- The bytes of the access that lie in the first page, if it crosses a page. -/
def pageFront (addr : Word) : ℕ := 0x1000 - addr.toNat % 0x1000

/-- `lnaddr_read`. -/
def lnaddrRead (cr0 cr3 addr : Word) (len : ℕ) (s : Mmu M) : Option (Word × Mmu M) :=
  if len = 1 ∨ len = 2 ∨ len = 4 then
    if addr.toNat % 0x1000 + len - 1 > 0xfff then do
      let front := pageFront addr
      let t ← pageTranslate ops cr0 cr3 addr s
      let low ← hwRead ops t.1 front t.2
      let t ← pageTranslate ops cr0 cr3 (addr + BitVec.ofNat 32 front) low.2
      let high ← hwRead ops t.1 (len - front) t.2
      return (high.1 <<< (front * 8) ||| low.1, high.2)
    else do
      let t ← pageTranslate ops cr0 cr3 addr s
      hwRead ops t.1 len t.2
  else none

/-- `lnaddr_write`; it has no assertion of its own. -/
def lnaddrWrite (cr0 cr3 addr : Word) (len : ℕ) (data : Word) (s : Mmu M) : Option (Mmu M) :=
  if addr.toNat % 0x1000 + len - 1 > 0xfff then do
    let front := pageFront addr
    let high := data >>> (8 * front)
    let low := data &&& (1#32 <<< (front * 8) - 1)
    let t ← pageTranslate ops cr0 cr3 addr s
    let s ← hwWrite ops t.1 front low t.2
    let t ← pageTranslate ops cr0 cr3 (addr + BitVec.ofNat 32 front) s
    hwWrite ops t.1 (len - front) high t.2
  else do
    let t ← pageTranslate ops cr0 cr3 addr s
    hwWrite ops t.1 len data t.2

end Mmu

/-! ### Offsets and frames -/

/-- The mask of the page offset, and that of the frame. -/
theorem getLsbD_offset {i : ℕ} (hi : i < 32) : (0xfff#32).getLsbD i = decide (i < 12) := by
  have h : ∀ i : Fin 32, (0xfff#32).getLsbD i.val = decide (i.val < 12) := by decide
  exact h ⟨i, hi⟩

theorem getLsbD_frame {i : ℕ} (hi : i < 32) : (0xfffff000#32).getLsbD i = decide (12 ≤ i) := by
  have h : ∀ i : Fin 32, (0xfffff000#32).getLsbD i.val = decide (12 ≤ i.val) := by decide
  exact h ⟨i, hi⟩

theorem getLsbD_physical (addr pte : Word) {i : ℕ} (hi : i < 32) :
    (physical addr pte).getLsbD i = if i < 12 then addr.getLsbD i else pte.getLsbD i := by
  unfold physical pageFrame
  rw [BitVec.getLsbD_or, BitVec.getLsbD_and, getLsbD_offset hi, BitVec.getLsbD_shiftLeft,
    BitVec.getLsbD_ushiftRight]
  by_cases h : i < 12
  · simp [h]
  · have hsub : 12 + (i - 12) = i := by omega
    simp [h, hi, hsub]

theorem toNat_frame (entry : Word) : (pageFrame entry <<< 12).toNat = entry.toNat / 4096 * 4096 := by
  have he := entry.isLt
  rw [pageFrame, BitVec.toNat_shiftLeft, BitVec.toNat_ushiftRight, Nat.shiftRight_eq_div_pow,
    Nat.shiftLeft_eq]
  exact Nat.mod_eq_of_lt (by omega)

/-- A physical address in numbers. -/
theorem toNat_physical (addr pte : Word) :
    (physical addr pte).toNat = pte.toNat / 4096 * 4096 + addr.toNat % 4096 := by
  have hoff : (addr &&& 0xfff#32).toNat = addr.toNat % 4096 := by
    rw [BitVec.toNat_and, show (0xfff#32).toNat = 2 ^ 12 - 1 from rfl,
      Nat.and_two_pow_sub_one_eq_mod]
  rw [physical, BitVec.or_comm, toNat_or_low (k := 12) (by rw [toNat_frame]; omega)
    (by rw [hoff]; omega), hoff, toNat_frame]

/-- A frame found with one offset serves another one. -/
theorem physical_of_frame (addr addr' pte : Word) :
    physical addr' pte &&& 0xfffff000#32 ||| addr &&& 0xfff#32 = physical addr pte := by
  apply BitVec.eq_of_getLsbD_eq
  intro i hi
  rw [BitVec.getLsbD_or, BitVec.getLsbD_and, BitVec.getLsbD_and, getLsbD_frame hi, getLsbD_offset hi,
    getLsbD_physical _ _ hi, getLsbD_physical _ _ hi]
  by_cases h : i < 12
  · simp [h]
  · simp [h, Nat.le_of_not_lt h]

/-! ### Runs -/

/-- The part of the machine that translation depends on. -/
structure MmuState (M : Type) where
  cr0 : Word
  cr3 : Word
  mmu : Mmu M

/-- A translation since the last load of CR3: the address, and the entries that
the walk would have read then. -/
structure Translated where
  addr : Word
  entries : Option (Word × Word)

section Runs

variable {M : Type} (ops : Phys M)

/-- The entries that the walk reads now. -/
def entries (s : MmuState M) (addr : Word) : Option (Word × Word) :=
  (walk ops s.cr3 addr s.mmu.mem).map (·.1)

/-- No entry of the page of `addr` has changed since it was translated, unless
CR3 was loaded in between. -/
def Fresh (seen : List Translated) (s : MmuState M) (addr : Word) : Prop :=
  ∀ x ∈ seen, x.addr >>> 12 = addr >>> 12 → x.entries = entries ops s addr

/-- A run after `init_TLB`, with the translations since the last load of CR3. A
page is translated only while its entries are those of its translations. Between
the translations memory is written, or changed in any other way: reads change
the caches, and devices write too. -/
inductive MmuRun : List Translated → MmuState M → Prop where
  | init (cr0 cr3 : Word) (m : M) : MmuRun [] ⟨cr0, cr3, m, initTLB⟩
  | translate {seen : List Translated} {s : MmuState M} {addr v : Word} {mmu : Mmu M}
      (h : MmuRun seen s) (hfresh : paging s.cr0 = true → Fresh ops seen s addr)
      (hstep : pageTranslate ops s.cr0 s.cr3 addr s.mmu = some (v, mmu)) :
      MmuRun (if paging s.cr0 then ⟨addr, entries ops s addr⟩ :: seen else seen) { s with mmu := mmu }
  | write {seen : List Translated} {s : MmuState M} {addr data : Word} {len : ℕ} {mmu : Mmu M}
      (h : MmuRun seen s) (hstep : hwWrite ops addr len data s.mmu = some mmu) :
      MmuRun seen { s with mmu := mmu }
  | memory {seen : List Translated} {s : MmuState M} (h : MmuRun seen s) (m : M) :
      MmuRun seen { s with mmu := { s.mmu with mem := m } }
  | setCr0 {seen : List Translated} {s : MmuState M} (h : MmuRun seen s) (v : Word) :
      MmuRun seen { s with cr0 := v }
  | setCr3 {seen : List Translated} {s : MmuState M} (h : MmuRun seen s) (v : Word) :
      MmuRun [] { s with cr3 := v, mmu := { s.mmu with tlb := initTLB } }

/-- The translation in a valid entry of the TLB is that of an earlier walk. -/
def Backed (seen : List Translated) (t : Tlb) : Prop :=
  ∀ i, (t i).valid = true → ∃ x ∈ seen, ∃ e e' addr, x.addr >>> 12 = (t i).tag ∧
    x.entries = some (e, e') ∧ (t i).result = physical addr e'

variable {ops} {seen : List Translated} {s : MmuState M} {addr : Word}

theorem backed_init : Backed seen initTLB := fun _ h => nomatch h

theorem Backed.cons {t : Tlb} (h : Backed seen t) (x : Translated) : Backed (x :: seen) t := by
  intro i hi
  obtain ⟨y, hy, rest⟩ := h i hi
  exact ⟨y, List.mem_cons_of_mem _ hy, rest⟩

/-- An entry is put into the TLB. -/
theorem tlbUpdate_eq (addr hwaddr : Word) (u : Mmu M) :
    ∃ i, (tlbUpdate ops addr hwaddr u).tlb = Function.update u.tlb i ⟨true, addr, hwaddr⟩ := by
  unfold tlbUpdate
  dsimp only
  cases (List.finRange 64).find? fun i => !(u.tlb i).valid with
  | some i => exact ⟨i, rfl⟩
  | none => exact ⟨_, rfl⟩

/-- A hit is a valid entry with the tag. -/
theorem tlbTranslate_hit {t : Tlb} (h : tlbTranslate t addr ≠ noTranslation) :
    ∃ i, (t i).valid = true ∧ (t i).tag = addr >>> 12 ∧ tlbTranslate t addr = (t i).result := by
  unfold tlbTranslate at h ⊢
  cases hfind : (List.finRange 64).find? fun i => (t i).valid && (t i).tag == addr >>> 12 with
  | none =>
    rw [hfind] at h
    exact absurd rfl h
  | some i =>
    have hi := List.find?_some hfind
    rw [Bool.and_eq_true, beq_iff_eq] at hi
    exact ⟨i, hi.1, hi.2, rfl⟩

theorem not_eq_zero_iff {v : Word} : ~~~v = 0 ↔ v = noTranslation := by
  constructor
  · intro h
    rw [← BitVec.not_not (b := v), h]
    rfl
  · rintro rfl
    rfl

/-- **One translation.** From a TLB that earlier walks back it gives the walk's
address, and the TLB is backed again. -/
theorem pageTranslate_step (hback : Backed seen s.mmu.tlb) (hfresh : Fresh ops seen s addr)
    (hpaging : paging s.cr0 = true) :
    (pageTranslate ops s.cr0 s.cr3 addr s.mmu).map (·.1) =
      (entries ops s addr).map (fun e => physical addr e.2) ∧
    ∀ v u, pageTranslate ops s.cr0 s.cr3 addr s.mmu = some (v, u) →
      Backed (⟨addr, entries ops s addr⟩ :: seen) u.tlb := by
  unfold pageTranslate
  rw [if_pos hpaging]
  dsimp only
  by_cases hmiss : tlbTranslate s.mmu.tlb addr = noTranslation
  · rw [if_pos (not_eq_zero_iff.mpr hmiss)]
    cases hwalk : walk ops s.cr3 addr s.mmu.mem with
    | none =>
      have hentries : entries ops s addr = none := by rw [entries, hwalk]; rfl
      rw [hentries]
      exact ⟨rfl, fun v u h => nomatch h⟩
    | some r =>
      have hentries : entries ops s addr = some r.1 := by rw [entries, hwalk]; rfl
      refine ⟨by rw [hentries]; rfl, fun v u h => ?_⟩
      obtain ⟨-, rfl⟩ := Prod.mk.inj (Option.some.inj h)
      obtain ⟨i, htlb⟩ := @tlbUpdate_eq M ops addr (physical addr r.1.2) { s.mmu with mem := r.2 }
      rw [htlb]
      intro j hj
      by_cases hij : j = i
      · subst hij
        rw [Function.update_self]
        exact ⟨_, List.mem_cons_self .., r.1.1, r.1.2, addr, rfl, hentries, rfl⟩
      · rw [Function.update_of_ne hij] at hj ⊢
        exact hback.cons _ j hj
  · rw [if_neg fun h => hmiss (not_eq_zero_iff.mp h)]
    obtain ⟨i, hvalid, htag, hresult⟩ := tlbTranslate_hit hmiss
    obtain ⟨x, hx, e, e', addr', hpage, hentries, hphys⟩ := hback i hvalid
    have hsame : entries ops s addr = some (e, e') := by
      rw [← hfresh x hx (hpage.trans htag), hentries]
    refine ⟨?_, fun v u h => ?_⟩
    · rw [hsame, hresult, hphys, physical_of_frame]
      rfl
    · obtain ⟨-, rfl⟩ := Prod.mk.inj (Option.some.inj h)
      exact hback.cons _

theorem pageTranslate_off (hpaging : paging s.cr0 = false) :
    pageTranslate ops s.cr0 s.cr3 addr s.mmu = some (addr, s.mmu) := by
  unfold pageTranslate
  rw [hpaging]
  rfl

/-- In a run the TLB is backed by the walks since the last load of CR3. -/
theorem MmuRun.inv (h : MmuRun ops seen s) : Backed seen s.mmu.tlb := by
  induction h with
  | init => exact backed_init
  | @translate seen s addr v mmu _ hfresh hstep ih =>
    cases hpaging : paging s.cr0 with
    | true =>
      rw [if_pos rfl]
      exact (pageTranslate_step ih (hfresh hpaging) hpaging).2 v mmu hstep
    | false =>
      rw [pageTranslate_off hpaging] at hstep
      obtain ⟨-, rfl⟩ := Prod.mk.inj (Option.some.inj hstep)
      rw [if_neg Bool.false_ne_true]
      exact ih
  | @write seen s addr data len mmu _ hstep ih =>
    unfold hwWrite at hstep
    cases hw : ops.write addr len data s.mmu.mem with
    | none =>
      rw [hw] at hstep
      exact nomatch hstep
    | some m =>
      rw [hw] at hstep
      obtain rfl := Option.some.inj hstep
      exact ih
  | memory _ _ ih => exact ih
  | setCr0 _ _ ih => exact ih
  | setCr3 _ _ _ => exact backed_init

/-- With and without paging. -/
theorem MmuRun.translates (h : MmuRun ops seen s) (hfresh : paging s.cr0 = true → Fresh ops seen s addr) :
    (pageTranslate ops s.cr0 s.cr3 addr s.mmu).map (·.1) =
      if paging s.cr0 then (entries ops s addr).map fun e => physical addr e.2 else some addr := by
  cases hpaging : paging s.cr0 with
  | true =>
    rw [if_pos rfl]
    exact (pageTranslate_step h.inv (hfresh hpaging) hpaging).1
  | false =>
    rw [if_neg Bool.false_ne_true, pageTranslate_off hpaging]
    rfl

/-- **Address translation is the page walk.** In every run, a page whose entries
have not changed since its translations is translated as the walk does: to its
frame with the offset, or not at all; without paging the address is its own. -/
theorem pageTranslate_eq_walk (h : MmuRun ops seen s)
    (hfresh : paging s.cr0 = true → Fresh ops seen s addr) :
    (pageTranslate ops s.cr0 s.cr3 addr s.mmu).map (·.1) =
      if paging s.cr0 then (entries ops s addr).map fun e => physical addr e.2 else some addr :=
  h.translates hfresh

end Runs

/-- RAM, and a random number generator that always draws 0. -/
def ram : Phys (Word → Byte) where
  read addr len m := some (word (fun i => m (addr + BitVec.ofNat 32 i)) len, m)
  write addr len data m := some fun a => if (a - addr).toNat < len then byte data (a - addr).toNat else m a
  srand0 := id
  rand m := (0, m)

/-- A page table at 0x2000, in the directory at 0x1000, maps page 0 to frame 5. -/
def onePage : Word → Byte := fun a =>
  if a = 0x1000 ∨ a = 0x2000 then 0x01 else if a = 0x1001 then 0x20 else if a = 0x2001 then 0x50 else 0

/-- Page 0 is translated with offset 0x123, and again with offset 0x456. -/
theorem pageTranslate_eq_walk_hit : ∃ v u,
    pageTranslate ram 0x80000001 0x1000 0x123 ⟨onePage, initTLB⟩ = some (v, u) ∧
    (pageTranslate ram 0x80000001 0x1000 0x456 u).map (·.1) =
      (if paging 0x80000001 then
        (entries ram ⟨0x80000001, 0x1000, u⟩ 0x456).map fun e => physical 0x456 e.2
      else some 0x456) :=
  ⟨_, _, rfl, pageTranslate_eq_walk (s := ⟨0x80000001, 0x1000, _⟩)
    (.translate (.init 0x80000001 0x1000 onePage) (fun _ _ hx => nomatch hx)
      (show pageTranslate ram 0x80000001 0x1000 0x123 ⟨onePage, initTLB⟩ = some _ from rfl))
    fun _ x hx _ => by
      obtain rfl := List.mem_singleton.mp hx
      rfl⟩

end Paging

end Nemu
