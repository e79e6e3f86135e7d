/-
# Linear accesses over flat physical memory

`lnaddr_read` and `lnaddr_write` split an access that crosses a page, and
translate the second page after the first part is done. Where physical memory is
a flat array of bytes, and no byte written is part of the tables in use, the two
parts make one access to the bytes at the translated addresses.

Key definitions: `FlatPhys`, `tableEntries`, `InTables`, `Ready`.
Key theorems: `walk_flat`, `Ready.translate`, `Ready.later`, `lnaddr_flat`.
-/
import Nemu.Lib.WordMem
import Nemu.Memory.Paging

namespace Nemu

namespace Paging

open Bytes WordMem

/-! ### Flat physical memory -/

/-- Physical memory is a flat array of bytes, as far as it is RAM: reads and
writes of up to four bytes, a write not of byte 0. -/
structure FlatPhys {M : Type} (ops : Phys M) (bytes : M → Mem) (Ram : Word → Prop) : Prop where
  read : ∀ {a : Word} {n : ℕ} (m : M), 1 ≤ n → n ≤ 4 → (∀ x, In a n x → Ram x) →
    ∃ m', ops.read a n m = some (peek (bytes m) a n, m') ∧ bytes m' = bytes m
  write : ∀ {a : Word} {n : ℕ} (data : Word) (m : M), 1 ≤ n → n ≤ 4 →
    (∀ x, In a n x → Ram x ∧ x ≠ 0) →
    ∃ m', ops.write a n data m = some m' ∧ bytes m' = poke (bytes m) a n data
  srand0 : ∀ m, bytes (ops.srand0 m) = bytes m
  rand : ∀ m, bytes (ops.rand m).2 = bytes m

/-- The two entries of an address, in a flat memory. -/
def tableEntries (f : Mem) (cr3 x : Word) : Option (Word × Word) :=
  let pde := peek f (pdeAddr cr3 x) 4
  let pte := peek f (pteAddr pde x) 4
  if present pde then if present pte then some (pde, pte) else none else none

/-- The byte is one of the entries that the walk of `x` reads. -/
def InTables (f : Mem) (cr3 x b : Word) : Prop :=
  In (pdeAddr cr3 x) 4 b ∨
    present (peek f (pdeAddr cr3 x) 4) = true ∧ In (pteAddr (peek f (pdeAddr cr3 x) 4) x) 4 b

section Flat

variable {M : Type} {ops : Phys M} {bytes : M → Mem} {Ram : Word → Prop}

/-- **The walk** reads the entries and changes no byte. -/
theorem walk_flat (hflat : FlatPhys ops bytes Ram) {cr3 x : Word} {m : M}
    (hram : ∀ b, InTables (bytes m) cr3 x b → Ram b) :
    ∃ m', walk ops cr3 x m = (tableEntries (bytes m) cr3 x).map (·, m') ∧ bytes m' = bytes m := by
  obtain ⟨m₁, hpde, hbytes₁⟩ := hflat.read (n := 4) m (by norm_num) le_rfl
    fun b hb => hram b (.inl hb)
  unfold walk tableEntries
  dsimp only
  by_cases hp : present (peek (bytes m) (pdeAddr cr3 x) 4) = true
  · obtain ⟨m₂, hpte, hbytes₂⟩ := hflat.read (n := 4) m₁ (by norm_num) le_rfl
      fun b hb => hram b (.inr ⟨hp, hb⟩)
    refine ⟨m₂, ?_, hbytes₂.trans hbytes₁⟩
    simp only [hpde, Option.bind_eq_bind, Option.bind_some, if_pos hp, hpte, hbytes₁]
    by_cases hp' : present (peek (bytes m) (pteAddr (peek (bytes m) (pdeAddr cr3 x) 4) x) 4) = true
    · simp [hp']
    · simp [hp']
  · refine ⟨m, ?_, rfl⟩
    simp only [hpde, Option.bind_eq_bind, Option.bind_some, if_neg hp, Option.map_none]

theorem entries_flat (hflat : FlatPhys ops bytes Ram) {s : MmuState M} {x : Word}
    (hram : ∀ b, InTables (bytes s.mmu.mem) s.cr3 x b → Ram b) :
    entries ops s x = tableEntries (bytes s.mmu.mem) s.cr3 x := by
  obtain ⟨m', hwalk, -⟩ := walk_flat hflat hram
  rw [entries, hwalk, Option.map_map]
  exact Option.map_id' ..

/-- Memories that agree on the tables. -/
theorem tables_congr {f g : Mem} {cr3 x : Word} (h : ∀ b, InTables f cr3 x b → g b = f b) :
    tableEntries g cr3 x = tableEntries f cr3 x ∧ ∀ b, InTables g cr3 x b ↔ InTables f cr3 x b := by
  have hpde : peek g (pdeAddr cr3 x) 4 = peek f (pdeAddr cr3 x) 4 :=
    peek_congr le_rfl fun b hb => h b (.inl hb)
  refine ⟨?_, fun b => by unfold InTables; rw [hpde]⟩
  unfold tableEntries
  dsimp only
  rw [hpde]
  by_cases hp : present (peek f (pdeAddr cr3 x) 4) = true
  · have hpte : peek g (pteAddr (peek f (pdeAddr cr3 x) 4) x) 4 =
        peek f (pteAddr (peek f (pdeAddr cr3 x) 4) x) 4 := peek_congr le_rfl fun b hb => h b (.inr ⟨hp, hb⟩)
    rw [hpte]
  · rw [if_neg hp, if_neg hp]

theorem tlbUpdate_flat (hflat : FlatPhys ops bytes Ram) (x v : Word) (u : Mmu M) :
    bytes (tlbUpdate ops x v u).mem = bytes u.mem := by
  unfold tlbUpdate
  dsimp only
  cases (List.finRange 64).find? fun i => !(u.tlb i).valid with
  | some i => exact hflat.srand0 _
  | none => exact (hflat.rand _).trans (hflat.srand0 _)

/-! ### A page that can be translated -/

/-- In a run, `x` is translated to `p`: by entries that have not changed since they
were last used, through tables in RAM. -/
structure Ready (ops : Phys M) (bytes : M → Mem) (Ram : Word → Prop) (seen : List Translated)
    (s : MmuState M) (x p : Word) : Prop where
  run : MmuRun ops seen s
  fresh : paging s.cr0 = true → Fresh ops seen s x
  tables : paging s.cr0 = true → ∀ b, InTables (bytes s.mmu.mem) s.cr3 x b → Ram b
  translated : (pageTranslate ops s.cr0 s.cr3 x s.mmu).map (·.1) = some p

variable {seen : List Translated} {s s' : MmuState M} {x y p : Word}

namespace Ready

theorem walked (h : Ready ops bytes Ram seen s x p) :
    (if paging s.cr0 then (entries ops s x).map fun e => physical x e.2 else some x) = some p := by
  rw [← h.run.translates h.fresh, h.translated]

/-- **A translation** changes no byte. -/
theorem translate (hflat : FlatPhys ops bytes Ram) (h : Ready ops bytes Ram seen s x p) :
    ∃ u, pageTranslate ops s.cr0 s.cr3 x s.mmu = some (p, u) ∧ bytes u.mem = bytes s.mmu.mem ∧
      MmuRun ops (if paging s.cr0 then ⟨x, entries ops s x⟩ :: seen else seen) { s with mmu := u } := by
  obtain ⟨⟨p', u⟩, hstep, rfl⟩ := Option.map_eq_some_iff.mp h.translated
  refine ⟨u, hstep, ?_, .translate h.run h.fresh hstep⟩
  unfold pageTranslate at hstep
  dsimp only at hstep
  split_ifs at hstep with hpaging hmiss
  · obtain ⟨m', hwalk, hbytes⟩ := walk_flat hflat (h.tables hpaging)
    rw [hwalk] at hstep
    cases he : tableEntries (bytes s.mmu.mem) s.cr3 x with
    | none =>
      rw [he] at hstep
      exact nomatch hstep
    | some e =>
      rw [he] at hstep
      obtain ⟨-, rfl⟩ := Prod.mk.inj (Option.some.inj hstep)
      exact (tlbUpdate_flat hflat ..).trans hbytes
  · obtain ⟨-, rfl⟩ := Prod.mk.inj (Option.some.inj hstep)
    rfl
  · obtain ⟨-, rfl⟩ := Prod.mk.inj (Option.some.inj hstep)
    rfl

/-- **Another page stays ready**, as long as its tables are not written. -/
theorem later (hflat : FlatPhys ops bytes Ram) (h : Ready ops bytes Ram seen s y p)
    {e : Option (Word × Word)} (hne : x >>> 12 ≠ y >>> 12)
    (hrun : MmuRun ops (if paging s.cr0 then ⟨x, e⟩ :: seen else seen) s') (hcr0 : s'.cr0 = s.cr0)
    (hcr3 : s'.cr3 = s.cr3) (hsame : paging s.cr0 = true →
      ∀ b, InTables (bytes s.mmu.mem) s.cr3 y b → bytes s'.mmu.mem b = bytes s.mmu.mem b) :
    Ready ops bytes Ram (if paging s.cr0 then ⟨x, e⟩ :: seen else seen) s' y p := by
  have htables : paging s.cr0 = true → ∀ b, InTables (bytes s'.mmu.mem) s'.cr3 y b → Ram b := by
    intro hp b hb
    rw [hcr3, (tables_congr (hsame hp)).2] at hb
    exact h.tables hp b hb
  have hentries : paging s.cr0 = true → entries ops s' y = entries ops s y := by
    intro hp
    rw [entries_flat hflat (htables hp), entries_flat hflat (h.tables hp), hcr3, (tables_congr (hsame hp)).1]
  have hfresh : paging s'.cr0 = true →
      Fresh ops (if paging s.cr0 then ⟨x, e⟩ :: seen else seen) s' y := by
    intro hp z hz hzy
    rw [hcr0] at hp
    rw [if_pos hp] at hz
    rw [hentries hp]
    rcases List.mem_cons.mp hz with rfl | hz
    · exact absurd hzy hne
    · exact h.fresh hp z hz hzy
  refine ⟨hrun, hfresh, fun hp => htables (hcr0 ▸ hp), ?_⟩
  rw [hrun.translates hfresh, hcr0, ← h.walked]
  cases hp : paging s.cr0 with
  | true => rw [if_pos rfl, if_pos rfl, hentries hp]
  | false => rfl

/-- The part of an access that lies in one page: its translation, and a read. -/
theorem read (hflat : FlatPhys ops bytes Ram) (h : Ready ops bytes Ram seen s x p) {n : ℕ}
    (h1 : 1 ≤ n) (h4 : n ≤ 4) (hram : ∀ b, In p n b → Ram b) :
    ∃ t u, pageTranslate ops s.cr0 s.cr3 x s.mmu = some (p, t) ∧
      hwRead ops p n t = some (peek (bytes s.mmu.mem) p n, u) ∧ bytes u.mem = bytes s.mmu.mem ∧
      MmuRun ops (if paging s.cr0 then ⟨x, entries ops s x⟩ :: seen else seen) { s with mmu := u } := by
  obtain ⟨t, htranslate, hbytes, hrun⟩ := h.translate hflat
  obtain ⟨m, hread, hbytes'⟩ := hflat.read t.mem h1 h4 hram
  refine ⟨t, { t with mem := m }, htranslate, ?_, hbytes'.trans hbytes, hrun.memory m⟩
  rw [hwRead, hread, hbytes]
  rfl

/-- And a write. -/
theorem write (hflat : FlatPhys ops bytes Ram) (h : Ready ops bytes Ram seen s x p) {n : ℕ}
    (data : Word) (h1 : 1 ≤ n) (h4 : n ≤ 4) (hram : ∀ b, In p n b → Ram b ∧ b ≠ 0) :
    ∃ t u, pageTranslate ops s.cr0 s.cr3 x s.mmu = some (p, t) ∧
      hwWrite ops p n data t = some u ∧ bytes u.mem = poke (bytes s.mmu.mem) p n data ∧
      MmuRun ops (if paging s.cr0 then ⟨x, entries ops s x⟩ :: seen else seen) { s with mmu := u } := by
  obtain ⟨t, htranslate, hbytes, hrun⟩ := h.translate hflat
  obtain ⟨m, hwrite, hbytes'⟩ := hflat.write data t.mem h1 h4 hram
  have hstep : hwWrite ops p n data t = some { t with mem := m } := by rw [hwWrite, hwrite]; rfl
  refine ⟨t, { t with mem := m }, htranslate, hstep, ?_,
    .write (s := { s with mmu := t }) hrun hstep⟩
  rw [← hbytes]
  exact hbytes'

end Ready

/-! ### The bytes of a page -/

/-- Another byte of the page. -/
theorem toNat_in_page {i : ℕ} (h : x.toNat % 4096 + i < 4096) :
    (x + BitVec.ofNat 32 i).toNat = x.toNat + i :=
  toNat_add_ofNat (by have := x.isLt; omega)

theorem page_in_page {i : ℕ} (h : x.toNat % 4096 + i < 4096) : (x + BitVec.ofNat 32 i) >>> 12 = x >>> 12 := by
  apply BitVec.eq_of_toNat_eq
  rw [BitVec.toNat_ushiftRight, BitVec.toNat_ushiftRight, toNat_in_page h, Nat.shiftRight_eq_div_pow,
    Nat.shiftRight_eq_div_pow]
  omega

theorem physical_in_page (pte : Word) {i : ℕ} (h : x.toNat % 4096 + i < 4096) :
    physical (x + BitVec.ofNat 32 i) pte = physical x pte + BitVec.ofNat 32 i := by
  apply BitVec.eq_of_toNat_eq
  have hlt := pte.isLt
  rw [toNat_add_ofNat (by rw [toNat_physical]; omega), toNat_physical, toNat_physical, toNat_in_page h]
  omega

theorem walk_page (cr3 : Word) (m : M) (h : y >>> 12 = x >>> 12) : walk ops cr3 y m = walk ops cr3 x m := by
  have hdir : y >>> 22 = x >>> 22 := by
    have h22 : ∀ z : Word, z >>> 22 = z >>> 12 >>> 10 := fun z => BitVec.shiftRight_add z 12 10
    rw [h22, h22, h]
  unfold walk pdeAddr pteAddr
  rw [hdir, h]

/-- The bytes of a page are translated alike. -/
theorem Ready.in_page {i : ℕ} {q : Word} (h : Ready ops bytes Ram seen s x p)
    (hi : Ready ops bytes Ram seen s (x + BitVec.ofNat 32 i) q) (hpage : x.toNat % 4096 + i < 4096) :
    q = p + BitVec.ofNat 32 i := by
  have hp := h.walked
  have hq := hi.walked
  have hentries : entries ops s (x + BitVec.ofNat 32 i) = entries ops s x := by
    unfold entries
    rw [walk_page _ _ (page_in_page hpage)]
  rw [hentries] at hq
  cases hpg : paging s.cr0 with
  | true =>
    rw [hpg, if_pos rfl] at hp hq
    obtain ⟨e, he, rfl⟩ := Option.map_eq_some_iff.mp hp
    rw [he, Option.map_some] at hq
    rw [← Option.some.inj hq, physical_in_page _ hpage]
  | false =>
    rw [hpg] at hp hq
    rw [← Option.some.inj hp, ← Option.some.inj hq]

theorem Ready.offset (h : Ready ops bytes Ram seen s x p) : p.toNat % 4096 = x.toNat % 4096 := by
  have hp := h.walked
  cases hpg : paging s.cr0 with
  | true =>
    rw [hpg, if_pos rfl] at hp
    obtain ⟨e, -, rfl⟩ := Option.map_eq_some_iff.mp hp
    rw [toNat_physical]
    omega
  | false =>
    rw [hpg] at hp
    rw [← Option.some.inj hp]

/-! ### The parts of an access -/

variable {addr data : Word} {len k n : ℕ} {phys : ℕ → Word}

/-- A part in one page is a range of physical addresses. -/
theorem phys_part (hready : ∀ i < k + n, Ready ops bytes Ram seen s (addr + BitVec.ofNat 32 i) (phys i))
    (hpage : (addr + BitVec.ofNat 32 k).toNat % 4096 + n ≤ 4096) {i : ℕ} (hi : i < n) :
    phys (k + i) = phys k + BitVec.ofNat 32 i := by
  have h := hready (k + i) (by omega)
  rw [BitVec.ofNat_add, ← BitVec.add_assoc] at h
  exact (hready k (by omega)).in_page h (by omega)

/-- Different bytes of an access have different addresses. -/
theorem phys_injective (hready : ∀ i < len, Ready ops bytes Ram seen s (addr + BitVec.ofNat 32 i) (phys i))
    (h4 : len ≤ 4) {i j : ℕ} (hi : i < len) (hj : j < len) (h : phys i = phys j) : i = j := by
  have hi4 := hi.trans_le h4
  have hj4 := hj.trans_le h4
  have hoffi := (hready i hi).offset
  have hoffj := (hready j hj).offset
  rw [h, BitVec.toNat_add, BitVec.toNat_ofNat] at hoffi
  rw [BitVec.toNat_add, BitVec.toNat_ofNat] at hoffj
  omega

/-- The range of a part. -/
theorem in_part (hphys : ∀ i < n, phys (k + i) = phys k + BitVec.ofNat 32 i) {b : Word}
    (hb : In (phys k) n b) : ∃ i < n, b = phys (k + i) := by
  obtain ⟨i, hi, rfl⟩ := hb.exists_add
  exact ⟨i, hi, (hphys i hi).symm⟩

/-- What holds of the bytes of a part holds in its range. -/
theorem forall_part {P : Word → Prop} (hphys : ∀ i < n, phys (k + i) = phys k + BitVec.ofNat 32 i)
    (h : ∀ i < n, P (phys (k + i))) (b : Word) (hb : In (phys k) n b) : P b := by
  obtain ⟨i, hi, rfl⟩ := in_part hphys hb
  exact h i hi

theorem peek_part (f : Mem) (hphys : ∀ i < n, phys (k + i) = phys k + BitVec.ofNat 32 i) :
    peek f (phys k) n = word (fun i => f (phys (k + i))) n :=
  word_congr fun i hi => by rw [hphys i hi]

/-- A part is written, and nothing else. -/
theorem poke_part (f : Mem) (v : Word) (hphys : ∀ i < n, phys (k + i) = phys k + BitVec.ofNat 32 i)
    (h4 : n ≤ 4) : (∀ i < n, poke f (phys k) n v (phys (k + i)) = byte v i) ∧
      ∀ b, (∀ i < n, b ≠ phys (k + i)) → poke f (phys k) n v b = f b := by
  refine ⟨fun i hi => ?_, fun b hb => poke_out fun hin => ?_⟩
  · rw [hphys i hi, poke_in (in_add hi h4), BitVec.add_comm, BitVec.add_sub_cancel, BitVec.toNat_ofNat,
      Nat.mod_eq_of_lt (by omega)]
  · obtain ⟨i, hi, rfl⟩ := in_part hphys hin
    exact hb i hi rfl

/-- An access that crosses a page: the length of its first part, and where the
second one begins. -/
theorem pageFront_spec (hcross : addr.toNat % 0x1000 + len - 1 > 0xfff) :
    1 ≤ pageFront addr ∧ pageFront addr < len ∧ addr.toNat % 4096 + pageFront addr = 4096 ∧
      (addr + BitVec.ofNat 32 (pageFront addr)).toNat % 4096 = 0 ∧
      addr >>> 12 ≠ (addr + BitVec.ofNat 32 (pageFront addr)) >>> 12 := by
  have hsum : addr.toNat % 4096 + pageFront addr = 4096 := by
    unfold pageFront
    omega
  have hzero : (addr + BitVec.ofNat 32 (pageFront addr)).toNat % 4096 = 0 := by
    rw [BitVec.toNat_add, BitVec.toNat_ofNat]
    omega
  refine ⟨by omega, by omega, hsum, hzero, fun h => ?_⟩
  have hpage := congrArg BitVec.toNat h
  rw [BitVec.toNat_ushiftRight, BitVec.toNat_ushiftRight, BitVec.toNat_add, BitVec.toNat_ofNat,
    Nat.shiftRight_eq_div_pow, Nat.shiftRight_eq_div_pow] at hpage
  have := addr.isLt
  omega

/-- An access inside a page is one part. -/
theorem whole_part (hready : ∀ i < len, Ready ops bytes Ram seen s (addr + BitVec.ofNat 32 i) (phys i))
    (hin : ¬ addr.toNat % 0x1000 + len - 1 > 0xfff) :
    ∀ i < len, phys (0 + i) = phys 0 + BitVec.ofNat 32 i := by
  have hzero : addr + BitVec.ofNat 32 0 = addr := BitVec.add_zero addr
  intro i hi
  exact phys_part (fun j hj => hready j (by omega)) (by rw [hzero]; omega) hi

/-- An access across two pages is two parts. -/
theorem two_parts (hready : ∀ i < len, Ready ops bytes Ram seen s (addr + BitVec.ofNat 32 i) (phys i))
    (h4 : len ≤ 4) (hcross : addr.toNat % 0x1000 + len - 1 > 0xfff) :
    (∀ i < pageFront addr, phys (0 + i) = phys 0 + BitVec.ofNat 32 i) ∧
      ∀ i < len - pageFront addr, phys (pageFront addr + i) = phys (pageFront addr) + BitVec.ofNat 32 i := by
  have hzero : addr + BitVec.ofNat 32 0 = addr := BitVec.add_zero addr
  obtain ⟨hpos, hlt, hsum, hback, -⟩ := pageFront_spec hcross
  constructor
  · intro i hi
    exact phys_part (fun j hj => hready j (by omega)) (by rw [hzero]; omega) hi
  · intro i hi
    exact phys_part (fun j hj => hready j (by omega)) (by omega) hi

/-- **`lnaddr_read`** gives the bytes at the translated addresses. -/
theorem lnaddrRead_flat (hflat : FlatPhys ops bytes Ram) (hlen : len = 1 ∨ len = 2 ∨ len = 4)
    (hready : ∀ i < len, Ready ops bytes Ram seen s (addr + BitVec.ofNat 32 i) (phys i))
    (hram : ∀ i < len, Ram (phys i)) :
    ∃ u, lnaddrRead ops s.cr0 s.cr3 addr len s.mmu =
        some (word (fun i => bytes s.mmu.mem (phys i)) len, u) ∧
      bytes u.mem = bytes s.mmu.mem := by
  have h1 : 1 ≤ len := by omega
  have h4 : len ≤ 4 := by omega
  have hzero : addr + BitVec.ofNat 32 0 = addr := BitVec.add_zero addr
  have hfirst : Ready ops bytes Ram seen s addr (phys 0) := hzero ▸ hready 0 (by omega)
  unfold lnaddrRead
  rw [if_pos hlen]
  by_cases hcross : addr.toNat % 0x1000 + len - 1 > 0xfff
  · obtain ⟨hpos, hlt, hsum, hback, hne⟩ := pageFront_spec hcross
    obtain ⟨hphys₁, hphys₂⟩ := two_parts hready h4 hcross
    obtain ⟨t₁, u₁, ht₁, hr₁, hb₁, hrun₁⟩ := hfirst.read hflat hpos (by omega)
      (forall_part hphys₁ fun i hi => hram _ (by omega))
    have hnext := (hready _ hlt).later hflat hne hrun₁ rfl rfl fun _ b _ => congrFun hb₁ b
    obtain ⟨t₂, u₂, ht₂, hr₂, hb₂, -⟩ := hnext.read hflat (n := len - pageFront addr) (by omega)
      (by omega) (forall_part hphys₂ fun i hi => hram _ (by omega))
    refine ⟨u₂, ?_, hb₂.trans hb₁⟩
    have hword := word_append (fun i => bytes s.mmu.mem (phys i)) (m := pageFront addr)
      (n := len - pageFront addr) (by omega)
    rw [Nat.add_sub_cancel' hlt.le] at hword
    rw [if_pos hcross, ht₁]
    simp only [Option.bind_eq_bind, Option.bind_some, hr₁]
    rw [ht₂]
    simp only [Option.bind_some, hr₂, hb₁, peek_part _ hphys₁, peek_part _ hphys₂, Nat.zero_add]
    rw [Nat.mul_comm, hword]
    rfl
  · have hphys := whole_part hready hcross
    obtain ⟨t, u, ht, hr, hb, -⟩ := hfirst.read hflat h1 h4 (forall_part hphys fun i hi => hram _ (by omega))
    refine ⟨u, ?_, hb⟩
    rw [if_neg hcross, ht]
    simp only [Option.bind_eq_bind, Option.bind_some, hr, peek_part _ hphys, Nat.zero_add]

/-- **`lnaddr_write`** writes the bytes at the translated addresses. -/
theorem lnaddrWrite_flat (hflat : FlatPhys ops bytes Ram) (hlen : len = 1 ∨ len = 2 ∨ len = 4)
    (hready : ∀ i < len, Ready ops bytes Ram seen s (addr + BitVec.ofNat 32 i) (phys i))
    (hram : ∀ i < len, Ram (phys i) ∧ phys i ≠ 0)
    (htables : paging s.cr0 = true → ∀ i < len, ∀ j < len,
      ¬ InTables (bytes s.mmu.mem) s.cr3 (addr + BitVec.ofNat 32 j) (phys i)) :
    ∃ u, lnaddrWrite ops s.cr0 s.cr3 addr len data s.mmu = some u ∧
      (∀ i < len, bytes u.mem (phys i) = byte data i) ∧
      ∀ b, (∀ i < len, b ≠ phys i) → bytes u.mem b = bytes s.mmu.mem b := by
  have h1 : 1 ≤ len := by omega
  have h4 : len ≤ 4 := by omega
  have hzero : addr + BitVec.ofNat 32 0 = addr := BitVec.add_zero addr
  have hfirst : Ready ops bytes Ram seen s addr (phys 0) := hzero ▸ hready 0 (by omega)
  unfold lnaddrWrite
  by_cases hcross : addr.toNat % 0x1000 + len - 1 > 0xfff
  · obtain ⟨hpos, hlt, hsum, hback, hne⟩ := pageFront_spec hcross
    obtain ⟨hphys₁, hphys₂⟩ := two_parts hready h4 hcross
    have hlow : 1#32 <<< (pageFront addr * 8) - 1 = low (pageFront addr) := low_eq_shl_sub_one (by omega)
    obtain ⟨t₁, u₁, ht₁, hw₁, hb₁, hrun₁⟩ := hfirst.write hflat (data &&& low (pageFront addr)) hpos
      (by omega) (forall_part hphys₁ fun i hi => hram _ (by omega))
    obtain ⟨hin₁, hout₁⟩ := poke_part (bytes s.mmu.mem) (data &&& low (pageFront addr)) hphys₁ (by omega)
    rw [← hb₁] at hin₁ hout₁
    have hnext := (hready _ hlt).later hflat hne hrun₁ rfl rfl fun hp b hb => hout₁ b fun i hi heq => by
      rw [heq] at hb
      exact htables hp _ (by omega) _ hlt hb
    obtain ⟨t₂, u₂, ht₂, hw₂, hb₂, -⟩ := hnext.write hflat (n := len - pageFront addr)
      (data >>> (8 * pageFront addr)) (by omega) (by omega)
      (forall_part hphys₂ fun i hi => hram _ (by omega))
    obtain ⟨hin₂, hout₂⟩ := poke_part (bytes u₁.mem) (data >>> (8 * pageFront addr)) hphys₂ (by omega)
    rw [← hb₂] at hin₂ hout₂
    refine ⟨u₂, ?_, fun i hi => ?_, fun b hb => ?_⟩
    · rw [if_pos hcross, ht₁]
      simp only [Option.bind_eq_bind, Option.bind_some, hlow, hw₁]
      rw [ht₂]
      exact hw₂
    · by_cases hfront : i < pageFront addr
      · have hother := hout₂ (phys i) fun j hj heq => by
          have := phys_injective hready h4 hi (j := pageFront addr + j) (by omega) heq
          omega
        have hbyte := hin₁ i hfront
        rw [byte_and_low _ (by omega), if_pos hfront, Nat.zero_add] at hbyte
        exact hother.trans hbyte
      · obtain ⟨j, rfl⟩ := Nat.exists_eq_add_of_le (Nat.le_of_not_lt hfront)
        rw [hin₂ j (by omega), byte_shr, Nat.add_comm]
    · rw [hout₂ b fun i hi => hb _ (by omega)]
      exact hout₁ b fun i hi => hb _ (by omega)
  · have hphys := whole_part hready hcross
    obtain ⟨t, u, ht, hw, hb, -⟩ := hfirst.write hflat data h1 h4 (forall_part hphys fun i hi => hram _ (by omega))
    obtain ⟨hin, hout⟩ := poke_part (bytes s.mmu.mem) data hphys h4
    simp only [Nat.zero_add] at hin hout
    rw [← hb] at hin hout
    refine ⟨u, ?_, hin, hout⟩
    rw [if_neg hcross, ht]
    exact hw

/-- **Linear accesses are accesses of the translated bytes**, in one page or across
two, whatever their frames are. -/
theorem lnaddr_flat (hflat : FlatPhys ops bytes Ram) (hlen : len = 1 ∨ len = 2 ∨ len = 4)
    (hready : ∀ i < len, Ready ops bytes Ram seen s (addr + BitVec.ofNat 32 i) (phys i))
    (hram : ∀ i < len, Ram (phys i)) :
    (∃ u, lnaddrRead ops s.cr0 s.cr3 addr len s.mmu =
        some (word (fun i => bytes s.mmu.mem (phys i)) len, u) ∧
      bytes u.mem = bytes s.mmu.mem) ∧
    ((∀ i < len, phys i ≠ 0) →
      (paging s.cr0 = true → ∀ i < len, ∀ j < len,
        ¬ InTables (bytes s.mmu.mem) s.cr3 (addr + BitVec.ofNat 32 j) (phys i)) →
      ∃ u, lnaddrWrite ops s.cr0 s.cr3 addr len data s.mmu = some u ∧
        (∀ i < len, bytes u.mem (phys i) = byte data i) ∧
        ∀ b, (∀ i < len, b ≠ phys i) → bytes u.mem b = bytes s.mmu.mem b) :=
  ⟨lnaddrRead_flat hflat hlen hready hram, fun hne htables =>
    lnaddrWrite_flat hflat hlen hready (fun i hi => ⟨hram i hi, hne i hi⟩) htables⟩

end Flat

/-! ### An access across two pages -/

theorem flatPhys_ram : FlatPhys ram id fun _ => True where
  read _ _ _ _ := ⟨_, rfl, rfl⟩
  write _ _ _ _ _ := ⟨_, rfl, rfl⟩
  srand0 _ := rfl
  rand _ := rfl

/-- A page table at 0x2000, in the directory at 0x1000, maps page 0 to frame 5 and
page 1 to frame 4. -/
def twoPages : Mem := fun a =>
  if a = 0x1000 ∨ a = 0x2000 ∨ a = 0x2004 then 0x01 else if a = 0x1001 then 0x20
  else if a = 0x2001 then 0x50 else if a = 0x2005 then 0x40 else 0

/-- Where the four bytes from 0xffe on are. -/
def crossing (i : ℕ) : Word := if i < 2 then 0x5ffe + BitVec.ofNat 32 i else 0x3ffe + BitVec.ofNat 32 i

theorem lnaddr_flat_crossing :
    (∃ u, lnaddrRead ram 0x80000001 0x1000 0xffe 4 ⟨twoPages, initTLB⟩ =
      some (word (fun i => twoPages (crossing i)) 4, u) ∧ u.mem = twoPages) ∧
    ∃ u, lnaddrWrite ram 0x80000001 0x1000 0xffe 4 0x44332211 ⟨twoPages, initTLB⟩ = some u ∧
      (∀ i < 4, u.mem (crossing i) = byte 0x44332211 i) ∧
      ∀ b, (∀ i < 4, b ≠ crossing i) → u.mem b = twoPages b := by
  have hready : ∀ i < 4, Ready ram id (fun _ => True) [] ⟨0x80000001, 0x1000, ⟨twoPages, initTLB⟩⟩
      (0xffe + BitVec.ofNat 32 i) (crossing i) := by
    intro i hi
    refine ⟨.init .., fun _ _ hx => (nomatch hx), fun _ _ _ => trivial, ?_⟩
    interval_cases i <;> rfl
  obtain ⟨hread, hwrite⟩ := lnaddr_flat flatPhys_ram (.inr (.inr rfl)) hready fun _ _ => trivial
  refine ⟨hread, hwrite (by decide) fun _ i hi j hj => ?_⟩
  unfold InTables
  interval_cases i <;> interval_cases j <;> decide

end Paging

end Nemu
