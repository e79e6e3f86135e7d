/-
# Accesses and the assertions on their length

The accesses of `memory.c` and `mmio.c` again, now with the assertion that
fails. `lnaddr_read` and `lnaddr_write` split an access at a page boundary, so
the parts of a four-byte access may have one and three bytes; `hwaddr_read` and
`hwaddr_write` pass three bytes on to a device, where `mmio_read` and
`mmio_write` assert a length of 1, 2 or 4. Apart from the kind of a failure these
are the accesses of `Hwaddr` and `Paging`.

Key definitions: `physOf`, `lnaddrRead`, `lnaddrWrite`, `Crosses`, `ThreeInMmio`.
Key theorems: `result_lnaddrRead`, `result_lnaddrWrite`, `lnaddrRead_length_iff`,
`lnaddrWrite_length_iff`.
-/
import Nemu.Lib.Cmd
import Nemu.Memory.Hwaddr
import Nemu.Memory.Paging

namespace Nemu

namespace Lengths

open Bytes Cmd Paging

section Accesses

variable {δ : Type} (junk : ℕ → Byte) (oob : ℕ → ℕ → Byte) (srand0 : Memory δ → Memory δ)
  (rand : Memory δ → ℕ × Memory δ)

/-- The physical memory that `TLB.c` and `memory.c` work on. -/
def physOf : Phys (Memory δ) where
  read addr len m := Nemu.hwaddrRead junk oob m addr len
  write addr len data m := Nemu.hwaddrWrite junk oob m addr len data
  srand0 := srand0
  rand := rand

/-- An access of physical memory. -/
def inMem {α : Type} (f : Memory δ → Option (α × Memory δ)) : Cmd (Mmu (Memory δ)) α :=
  access fun s => (f s.mem).map fun r => (r.1, { s with mem := r.2 })

/-- The lengths that the assertions accept. -/
def LenOk (len : ℕ) : Prop := len = 1 ∨ len = 2 ∨ len = 4

instance (len : ℕ) : Decidable (LenOk len) := inferInstanceAs (Decidable (len = 1 ∨ len = 2 ∨ len = 4))

/-- `mmio_read`. -/
def mmioRead (addr : Word) (len : ℕ) (p : MmioMap δ) : Cmd (Mmu (Memory δ)) Word :=
  if LenOk len then
    inMem fun m => (Nemu.mmioRead m.mmio addr len p).map fun r => (r.1, { m with mmio := r.2 })
  else fail .length

/-- `mmio_write`. -/
def mmioWrite (addr : Word) (len : ℕ) (data : Word) (p : MmioMap δ) : Cmd (Mmu (Memory δ)) Unit :=
  if LenOk len then
    inMem fun m => (Nemu.mmioWrite m.mmio addr len data p).map fun d => ((), { m with mmio := d })
  else fail .length

/-- `hwaddr_read`. -/
def hwaddrRead (addr : Word) (len : ℕ) : Cmd (Mmu (Memory δ)) Word := do
  let map ← read fun s : Mmu (Memory δ) => isMmio s.mem.mmio addr
  match map with
  | none =>
    let v ← inMem fun m => (cache1Read junk oob m.cache addr len).map fun r => (r.1, { m with cache := r.2 })
    return v &&& low len
  | some p =>
    let v ← mmioRead addr len p
    return v &&& low len

/-- `hwaddr_write`. -/
def hwaddrWrite (addr : Word) (len : ℕ) (data : Word) : Cmd (Mmu (Memory δ)) Unit :=
  if addr = 0 then pure ()
  else do
    let map ← read fun s : Mmu (Memory δ) => isMmio s.mem.mmio addr
    match map with
    | none =>
      inMem fun m => (cache1Write junk oob m.cache addr len data).map fun c => ((), { m with cache := c })
    | some p => mmioWrite addr len data p

/-- The two entries of an address. -/
def walk (cr3 addr : Word) : Cmd (Mmu (Memory δ)) (Word × Word) := do
  let pde ← hwaddrRead junk oob (pdeAddr cr3 addr) 4
  if present pde then
    let pte ← hwaddrRead junk oob (pteAddr pde addr) 4
    if present pte then return (pde, pte) else abort
  else abort

/-- `page_translate`. -/
def pageTranslate (cr0 cr3 addr : Word) : Cmd (Mmu (Memory δ)) Word :=
  if paging cr0 then do
    let hwaddr ← read fun s : Mmu (Memory δ) => tlbTranslate s.tlb addr
    if ~~~hwaddr = 0 then
      let r ← walk junk oob cr3 addr
      write (tlbUpdate (physOf junk oob srand0 rand) addr (physical addr r.2))
      return physical addr r.2
    else return hwaddr &&& 0xfffff000#32 ||| addr &&& 0xfff#32
  else return addr

/-- The access crosses a page boundary. -/
def Crosses (addr : Word) (len : ℕ) : Prop := addr.toNat % 0x1000 + len - 1 > 0xfff

instance (addr : Word) (len : ℕ) : Decidable (Crosses addr len) :=
  inferInstanceAs (Decidable (addr.toNat % 0x1000 + len - 1 > 0xfff))

/-- `lnaddr_read`. -/
def lnaddrRead (cr0 cr3 addr : Word) (len : ℕ) : Cmd (Mmu (Memory δ)) Word :=
  if LenOk len then
    if Crosses addr len then do
      let front := pageFront addr
      let t ← pageTranslate junk oob srand0 rand cr0 cr3 addr
      let low ← hwaddrRead junk oob t front
      let t ← pageTranslate junk oob srand0 rand cr0 cr3 (addr + BitVec.ofNat 32 front)
      let high ← hwaddrRead junk oob t (len - front)
      return high <<< (front * 8) ||| low
    else do
      let t ← pageTranslate junk oob srand0 rand cr0 cr3 addr
      hwaddrRead junk oob t len
  else fail .length

/-- `lnaddr_write`. -/
def lnaddrWrite (cr0 cr3 addr : Word) (len : ℕ) (data : Word) : Cmd (Mmu (Memory δ)) Unit :=
  if Crosses addr len then do
    let front := pageFront addr
    let high := data >>> (8 * front)
    let low := data &&& (1#32 <<< (front * 8) - 1)
    let t ← pageTranslate junk oob srand0 rand cr0 cr3 addr
    hwaddrWrite junk oob t front low
    let t ← pageTranslate junk oob srand0 rand cr0 cr3 (addr + BitVec.ofNat 32 front)
    hwaddrWrite junk oob t (len - front) high
  else do
    let t ← pageTranslate junk oob srand0 rand cr0 cr3 addr
    hwaddrWrite junk oob t len data

end Accesses

/-! ### The same accesses -/

section Result

variable {δ : Type} {junk : ℕ → Byte} {oob : ℕ → ℕ → Byte} {srand0 : Memory δ → Memory δ}
  {rand : Memory δ → ℕ × Memory δ} {s : Mmu (Memory δ)}

theorem result_inMem {α : Type} (f : Memory δ → Option (α × Memory δ)) :
    result (inMem f s) = (f s.mem).map fun r => (r.1, { s with mem := r.2 }) := result_access _

theorem result_hwaddrRead (addr : Word) (len : ℕ) : result (hwaddrRead junk oob addr len s) =
    hwRead (physOf junk oob srand0 rand) addr len s := by
  unfold hwaddrRead hwRead physOf Nemu.hwaddrRead
  rw [read_bind_run]
  dsimp only
  cases isMmio s.mem.mmio addr with
  | none =>
    dsimp only
    rw [result_bind, result_inMem]
    cases cache1Read junk oob s.mem.cache addr len <;> rfl
  | some p =>
    dsimp only
    rw [result_bind]
    unfold mmioRead
    by_cases hl : LenOk len
    · rw [if_pos hl, result_inMem]
      cases Nemu.mmioRead s.mem.mmio addr len p <;> rfl
    · have hnone : Nemu.mmioRead s.mem.mmio addr len p = none := if_neg hl
      rw [if_neg hl, hnone]
      rfl

theorem result_hwaddrWrite (addr : Word) (len : ℕ) (data : Word) :
    result (hwaddrWrite junk oob addr len data s) =
      (hwWrite (physOf junk oob srand0 rand) addr len data s).map ((), ·) := by
  unfold hwaddrWrite hwWrite physOf Nemu.hwaddrWrite
  dsimp only
  by_cases h0 : addr = 0
  · rw [if_pos h0, if_pos h0]
    rfl
  · rw [if_neg h0, if_neg h0, read_bind_run]
    cases isMmio s.mem.mmio addr with
    | none =>
      dsimp only
      rw [result_inMem]
      cases cache1Write junk oob s.mem.cache addr len data <;> rfl
    | some p =>
      dsimp only
      unfold mmioWrite
      by_cases hl : LenOk len
      · rw [if_pos hl, result_inMem]
        cases Nemu.mmioWrite s.mem.mmio addr len data p <;> rfl
      · have hnone : Nemu.mmioWrite s.mem.mmio addr len data p = none := if_neg hl
        rw [if_neg hl, hnone]
        rfl

theorem result_walk (cr3 addr : Word) : result (walk junk oob cr3 addr s) =
    (Paging.walk (physOf junk oob srand0 rand) cr3 addr s.mem).map fun r =>
      (r.1, { s with mem := r.2 }) := by
  unfold walk Paging.walk
  rw [result_bind, @result_hwaddrRead δ junk oob srand0 rand, hwRead]
  cases (physOf junk oob srand0 rand).read (pdeAddr cr3 addr) 4 s.mem with
  | none => rfl
  | some x =>
    dsimp only [Option.bind_some, Option.bind_eq_bind, Option.pure_def]
    by_cases hp : present x.1 = true
    · rw [if_pos hp, if_pos hp, result_bind, @result_hwaddrRead δ junk oob srand0 rand, hwRead]
      cases (physOf junk oob srand0 rand).read (pteAddr x.1 addr) 4 x.2 with
      | none => rfl
      | some y =>
        dsimp only [Option.bind_some, Option.bind_eq_bind, Option.pure_def]
        by_cases hp' : present y.1 = true
        · rw [if_pos hp', if_pos hp']
          rfl
        · rw [if_neg hp', if_neg hp']
          rfl
    · rw [if_neg hp, if_neg hp]
      rfl

theorem result_pageTranslate (cr0 cr3 addr : Word) :
    result (pageTranslate junk oob srand0 rand cr0 cr3 addr s) =
      Paging.pageTranslate (physOf junk oob srand0 rand) cr0 cr3 addr s := by
  unfold pageTranslate Paging.pageTranslate
  by_cases hp : paging cr0 = true
  · rw [if_pos hp, if_pos hp, read_bind_run]
    dsimp only
    by_cases hm : ~~~(tlbTranslate s.tlb addr) = 0
    · rw [if_pos hm, if_pos hm, result_bind, @result_walk δ junk oob srand0 rand]
      cases Paging.walk (physOf junk oob srand0 rand) cr3 addr s.mem <;> rfl
    · rw [if_neg hm, if_neg hm]
      rfl
  · rw [if_neg hp, if_neg hp]
    rfl

/-- Without the kind of a failure, `lnaddr_read` is that of `Paging`. -/
theorem result_lnaddrRead (cr0 cr3 addr : Word) (len : ℕ) :
    result (lnaddrRead junk oob srand0 rand cr0 cr3 addr len s) =
      Paging.lnaddrRead (physOf junk oob srand0 rand) cr0 cr3 addr len s := by
  unfold lnaddrRead Paging.lnaddrRead
  by_cases hl : LenOk len
  · rw [if_pos hl, if_pos (show len = 1 ∨ len = 2 ∨ len = 4 from hl)]
    by_cases hc : Crosses addr len
    · rw [if_pos hc, if_pos (show addr.toNat % 0x1000 + len - 1 > 0xfff from hc)]
      simp only [result_bind, result_pageTranslate, @result_hwaddrRead δ junk oob srand0 rand]
      rfl
    · rw [if_neg hc, if_neg (show ¬ addr.toNat % 0x1000 + len - 1 > 0xfff from hc)]
      simp only [result_bind, result_pageTranslate, @result_hwaddrRead δ junk oob srand0 rand]
      rfl
  · rw [if_neg hl, if_neg (show ¬ (len = 1 ∨ len = 2 ∨ len = 4) from hl)]
    rfl

/-- And `lnaddr_write`. -/
theorem result_lnaddrWrite (cr0 cr3 addr : Word) (len : ℕ) (data : Word) :
    result (lnaddrWrite junk oob srand0 rand cr0 cr3 addr len data s) =
      (Paging.lnaddrWrite (physOf junk oob srand0 rand) cr0 cr3 addr len data s).map ((), ·) := by
  unfold lnaddrWrite Paging.lnaddrWrite
  by_cases hc : Crosses addr len
  · rw [if_pos hc, if_pos (show addr.toNat % 0x1000 + len - 1 > 0xfff from hc)]
    simp only [result_bind, result_pageTranslate, @result_hwaddrWrite δ junk oob srand0 rand]
    cases Paging.pageTranslate (physOf junk oob srand0 rand) cr0 cr3 addr s with
    | none => rfl
    | some t =>
      dsimp only [Option.bind_some, Option.bind_eq_bind]
      cases hwWrite (physOf junk oob srand0 rand) t.1 (pageFront addr)
          (data &&& (1#32 <<< (pageFront addr * 8) - 1)) t.2 with
      | none => rfl
      | some s' =>
        dsimp only [Option.map_some, Option.bind_some]
        cases Paging.pageTranslate (physOf junk oob srand0 rand) cr0 cr3
          (addr + BitVec.ofNat 32 (pageFront addr)) s' <;> rfl
  · rw [if_neg hc, if_neg (show ¬ addr.toNat % 0x1000 + len - 1 > 0xfff from hc)]
    simp only [result_bind, result_pageTranslate, @result_hwaddrWrite δ junk oob srand0 rand]
    cases Paging.pageTranslate (physOf junk oob srand0 rand) cr0 cr3 addr s <;> rfl

end Result

/-! ### When one of them fails -/

section Fails

variable {δ : Type} {junk : ℕ → Byte} {oob : ℕ → ℕ → Byte} {srand0 : Memory δ → Memory δ}
  {rand : Memory δ → ℕ × Memory δ} {s : Mmu (Memory δ)}

theorem inMem_ne_length {α : Type} (f : Memory δ → Option (α × Memory δ)) :
    inMem f s ≠ .abort .length := access_ne_length

theorem hwaddrRead_length_iff {addr : Word} {len : ℕ} : hwaddrRead junk oob addr len s = .abort .length ↔
    (isMmio s.mem.mmio addr).isSome = true ∧ ¬ LenOk len := by
  unfold hwaddrRead
  rw [read_bind_run]
  cases isMmio s.mem.mmio addr with
  | none =>
    dsimp only
    rw [bind_eq_abort]
    constructor
    · rintro (h | ⟨v, s', -, h⟩)
      · exact absurd h (inMem_ne_length _)
      · exact nomatch h
    · exact fun h => absurd h.1 Bool.false_ne_true
  | some p =>
    dsimp only
    rw [bind_eq_abort]
    unfold mmioRead
    by_cases hl : LenOk len
    · rw [if_pos hl]
      constructor
      · rintro (h | ⟨v, s', -, h⟩)
        · exact absurd h (inMem_ne_length _)
        · exact nomatch h
      · exact fun h => absurd hl h.2
    · rw [if_neg hl]
      exact ⟨fun _ => ⟨rfl, hl⟩, fun _ => .inl rfl⟩

theorem hwaddrWrite_length_iff {addr data : Word} {len : ℕ} :
    hwaddrWrite junk oob addr len data s = .abort .length ↔
      addr ≠ 0 ∧ (isMmio s.mem.mmio addr).isSome = true ∧ ¬ LenOk len := by
  unfold hwaddrWrite
  by_cases h0 : addr = 0
  · rw [if_pos h0, pure_run]
    exact ⟨nofun, fun h => absurd h0 h.1⟩
  · rw [if_neg h0, read_bind_run]
    cases isMmio s.mem.mmio addr with
    | none => exact ⟨fun h => absurd h (inMem_ne_length _), fun h => absurd h.2.1 Bool.false_ne_true⟩
    | some p =>
      dsimp only
      unfold mmioWrite
      by_cases hl : LenOk len
      · rw [if_pos hl]
        exact ⟨fun h => absurd h (inMem_ne_length _), fun h => absurd hl h.2.2⟩
      · rw [if_neg hl]
        exact ⟨fun _ => ⟨h0, rfl, hl⟩, fun _ => rfl⟩

/-- The entries are read with four bytes each. -/
theorem pageTranslate_ne_length {cr0 cr3 addr : Word} :
    pageTranslate junk oob srand0 rand cr0 cr3 addr s ≠ .abort .length := by
  have hread : ∀ (addr : Word) (s : Mmu (Memory δ)), hwaddrRead junk oob addr 4 s ≠ .abort .length :=
    fun addr s h => (hwaddrRead_length_iff.mp h).2 (.inr (.inr rfl))
  unfold pageTranslate
  by_cases hp : paging cr0 = true
  · rw [if_pos hp, read_bind_run]
    by_cases hm : ~~~(tlbTranslate s.tlb addr) = 0
    · rw [if_pos hm]
      intro h
      rcases bind_eq_abort.mp h with h | ⟨r, s', -, h⟩
      · unfold walk at h
        rcases bind_eq_abort.mp h with h | ⟨pde, s', -, h⟩
        · exact hread _ _ h
        · split at h
          · rcases bind_eq_abort.mp h with h | ⟨pte, s', -, h⟩
            · exact hread _ _ h
            · split at h
              · exact nomatch h
              · exact nomatch h
          · exact nomatch h
      · exact nomatch h
    · rw [if_neg hm, pure_run]
      exact nofun
  · rw [if_neg hp, pure_run]
    exact nofun

variable (junk oob srand0 rand)

/-- The address is translated to one in an MMIO map, and to one that `ok` holds of. -/
def InMmio (ok : Word → Prop) (cr0 cr3 addr : Word) (s : Mmu (Memory δ)) : Prop :=
  ∃ pa s', pageTranslate junk oob srand0 rand cr0 cr3 addr s = .ok pa s' ∧ ok pa ∧
    (isMmio s'.mem.mmio pa).isSome = true

/-- A read of four bytes across a page boundary has three of them, before or after
the boundary, in an MMIO map. -/
def ThreeRead (cr0 cr3 addr : Word) (len : ℕ) (s : Mmu (Memory δ)) : Prop :=
  len = 4 ∧ (addr.toNat % 0x1000 = 0xffd ∧ InMmio junk oob srand0 rand (fun _ => True) cr0 cr3 addr s ∨
    addr.toNat % 0x1000 = 0xfff ∧ ∃ v s', (pageTranslate junk oob srand0 rand cr0 cr3 addr >>= fun t =>
      hwaddrRead junk oob t 1) s = .ok v s' ∧
        InMmio junk oob srand0 rand (fun _ => True) cr0 cr3 (addr + 1) s')

/-- And a write, not at physical address 0. -/
def ThreeWrite (cr0 cr3 addr : Word) (len : ℕ) (data : Word) (s : Mmu (Memory δ)) : Prop :=
  len = 4 ∧ (addr.toNat % 0x1000 = 0xffd ∧ InMmio junk oob srand0 rand (· ≠ 0) cr0 cr3 addr s ∨
    addr.toNat % 0x1000 = 0xfff ∧ ∃ s', (pageTranslate junk oob srand0 rand cr0 cr3 addr >>= fun t =>
      hwaddrWrite junk oob t 1 (data &&& 0xff#32)) s = .ok () s' ∧
        InMmio junk oob srand0 rand (· ≠ 0) cr0 cr3 (addr + 1) s')

variable {junk oob srand0 rand}

/-- A translation, and then an access of a part. -/
theorem part_length_iff {cr0 cr3 addr : Word} {α : Type} {ok : Word → Prop} {len : ℕ}
    {k : Word → Cmd (Mmu (Memory δ)) α}
    (hk : ∀ pa s, k pa s = .abort .length ↔ ok pa ∧ (isMmio s.mem.mmio pa).isSome = true ∧ ¬ LenOk len) :
    (pageTranslate junk oob srand0 rand cr0 cr3 addr >>= k) s = .abort .length ↔
      ¬ LenOk len ∧ InMmio junk oob srand0 rand ok cr0 cr3 addr s := by
  rw [bind_eq_abort]
  constructor
  · rintro (h | ⟨pa, s', ht, h⟩)
    · exact absurd h pageTranslate_ne_length
    · have hm := (hk pa s').mp h
      exact ⟨hm.2.2, pa, s', ht, hm.1, hm.2.1⟩
  · rintro ⟨hl, pa, s', ht, hok, hm⟩
    exact .inr ⟨pa, s', ht, (hk pa s').mpr ⟨hok, hm, hl⟩⟩

/-- Two parts, one after the other. -/
theorem parts_length_iff {cr0 cr3 addr addr' : Word} {α β γ : Type} {ok : Word → Prop} {len len' : ℕ}
    {k : Word → Cmd (Mmu (Memory δ)) α} {k' : α → Word → Cmd (Mmu (Memory δ)) β}
    {last : α → β → γ}
    (hk : ∀ pa s, k pa s = .abort .length ↔ ok pa ∧ (isMmio s.mem.mmio pa).isSome = true ∧ ¬ LenOk len)
    (hk' : ∀ a pa s, k' a pa s = .abort .length ↔
      ok pa ∧ (isMmio s.mem.mmio pa).isSome = true ∧ ¬ LenOk len') :
    ((pageTranslate junk oob srand0 rand cr0 cr3 addr >>= k) >>= fun a =>
        (pageTranslate junk oob srand0 rand cr0 cr3 addr' >>= k' a) >>= fun b => pure (last a b)) s =
      .abort .length ↔
    ¬ LenOk len ∧ InMmio junk oob srand0 rand ok cr0 cr3 addr s ∨
      ¬ LenOk len' ∧ ∃ a s', (pageTranslate junk oob srand0 rand cr0 cr3 addr >>= k) s = .ok a s' ∧
        InMmio junk oob srand0 rand ok cr0 cr3 addr' s' := by
  rw [bind_eq_abort, part_length_iff hk]
  apply or_congr_right
  constructor
  · rintro ⟨a, s', hfirst, h⟩
    rcases bind_eq_abort.mp h with h | ⟨b, s'', -, h⟩
    · have hpart := (part_length_iff (hk' a)).mp h
      exact ⟨hpart.1, a, s', hfirst, hpart.2⟩
    · exact nomatch h
  · rintro ⟨hl, a, s', hfirst, hm⟩
    exact ⟨a, s', hfirst, bind_eq_abort.mpr (.inl ((part_length_iff (hk' a)).mpr ⟨hl, hm⟩))⟩

/-- The parts of an access across a page boundary. -/
theorem parts_of_crosses {addr : Word} {len : ℕ} (hl : LenOk len) (hc : Crosses addr len) :
    (¬ LenOk (pageFront addr) ↔ len = 4 ∧ addr.toNat % 0x1000 = 0xffd) ∧
      (¬ LenOk (len - pageFront addr) ↔ len = 4 ∧ addr.toNat % 0x1000 = 0xfff) := by
  unfold LenOk Crosses pageFront at *
  omega

/-- At the last byte of a page the first part is that byte. -/
theorem pageFront_eq_one {addr : Word} (h : addr.toNat % 0x1000 = 0xfff) : pageFront addr = 1 := by
  rw [pageFront, h]

/-- The condition on the parts, by the offset in the page. -/
theorem split_iff {addr : Word} {len : ℕ} {p : Prop} {q : Word → Prop} (hl : LenOk len)
    (hc : Crosses addr len) :
    (¬ LenOk (pageFront addr) ∧ p ∨ ¬ LenOk (len - pageFront addr) ∧ q (addr + BitVec.ofNat 32 (pageFront addr))) ↔
      len = 4 ∧ (addr.toNat % 0x1000 = 0xffd ∧ p ∨ addr.toNat % 0x1000 = 0xfff ∧ q (addr + 1)) := by
  obtain ⟨hfront, hback⟩ := parts_of_crosses hl hc
  rw [hfront, hback, and_assoc, and_assoc, ← and_or_left]
  refine and_congr_right fun _ => or_congr_right (and_congr_right fun h => ?_)
  rw [pageFront_eq_one h]
  rfl

/-- `lnaddr_read` fails an assertion on a length exactly if a part of three bytes
goes to a device. -/
theorem lnaddrRead_length_iff {cr0 cr3 addr : Word} {len : ℕ} (hl : LenOk len) :
    lnaddrRead junk oob srand0 rand cr0 cr3 addr len s = .abort .length ↔
      ThreeRead junk oob srand0 rand cr0 cr3 addr len s := by
  have hpart : ∀ (n : ℕ) (pa : Word) (s : Mmu (Memory δ)), hwaddrRead junk oob pa n s = .abort .length ↔
      True ∧ (isMmio s.mem.mmio pa).isSome = true ∧ ¬ LenOk n :=
    fun n pa s => by rw [hwaddrRead_length_iff, true_and]
  by_cases hc : Crosses addr len
  · have hparts : lnaddrRead junk oob srand0 rand cr0 cr3 addr len =
        (pageTranslate junk oob srand0 rand cr0 cr3 addr >>= fun t =>
          hwaddrRead junk oob t (pageFront addr)) >>= fun low =>
        (pageTranslate junk oob srand0 rand cr0 cr3 (addr + BitVec.ofNat 32 (pageFront addr)) >>= fun t =>
          hwaddrRead junk oob t (len - pageFront addr)) >>= fun high =>
        pure (high <<< (pageFront addr * 8) ||| low) := by
      unfold lnaddrRead
      rw [if_pos hl, if_pos hc]
      simp only [bind_assoc_cmd]
    rw [hparts, parts_length_iff (hpart (pageFront addr)) fun _ => hpart (len - pageFront addr)]
    have hsplit := @split_iff addr len (InMmio junk oob srand0 rand (fun _ => True) cr0 cr3 addr s)
      (fun addr' => ∃ v s', (pageTranslate junk oob srand0 rand cr0 cr3 addr >>= fun t =>
        hwaddrRead junk oob t (pageFront addr)) s = .ok v s' ∧
          InMmio junk oob srand0 rand (fun _ => True) cr0 cr3 addr' s') hl hc
    refine hsplit.trans (and_congr_right fun _ => or_congr_right (and_congr_right fun h => ?_))
    rw [pageFront_eq_one h]
  · unfold lnaddrRead ThreeRead
    rw [if_pos hl, if_neg hc, part_length_iff (hpart len)]
    unfold Crosses at hc
    constructor
    · exact fun h => absurd hl h.1
    · omega

/-- `lnaddr_write` too, unless the part is at physical address 0. -/
theorem lnaddrWrite_length_iff {cr0 cr3 addr data : Word} {len : ℕ} (hl : LenOk len) :
    lnaddrWrite junk oob srand0 rand cr0 cr3 addr len data s = .abort .length ↔
      ThreeWrite junk oob srand0 rand cr0 cr3 addr len data s := by
  have hpart : ∀ (n : ℕ) (data pa : Word) (s : Mmu (Memory δ)),
      hwaddrWrite junk oob pa n data s = .abort .length ↔
        pa ≠ 0 ∧ (isMmio s.mem.mmio pa).isSome = true ∧ ¬ LenOk n := fun _ _ _ _ => hwaddrWrite_length_iff
  by_cases hc : Crosses addr len
  · have hparts : lnaddrWrite junk oob srand0 rand cr0 cr3 addr len data =
        (pageTranslate junk oob srand0 rand cr0 cr3 addr >>= fun t =>
          hwaddrWrite junk oob t (pageFront addr) (data &&& (1#32 <<< (pageFront addr * 8) - 1))) >>= fun _ =>
        (pageTranslate junk oob srand0 rand cr0 cr3 (addr + BitVec.ofNat 32 (pageFront addr)) >>= fun t =>
          hwaddrWrite junk oob t (len - pageFront addr) (data >>> (8 * pageFront addr))) >>= fun u =>
        pure u := by
      unfold lnaddrWrite
      rw [if_pos hc]
      simp only [bind_assoc_cmd, bind_pure_cmd]
    rw [hparts, parts_length_iff (hpart (pageFront addr) _) fun _ => hpart (len - pageFront addr) _]
    have hsplit := @split_iff addr len (InMmio junk oob srand0 rand (· ≠ 0) cr0 cr3 addr s)
      (fun addr' => ∃ u s', (pageTranslate junk oob srand0 rand cr0 cr3 addr >>= fun t =>
        hwaddrWrite junk oob t (pageFront addr) (data &&& (1#32 <<< (pageFront addr * 8) - 1))) s =
          .ok u s' ∧ InMmio junk oob srand0 rand (· ≠ 0) cr0 cr3 addr' s') hl hc
    refine hsplit.trans (and_congr_right fun _ => or_congr_right (and_congr_right fun h => ?_))
    have hlow : 1#32 <<< (1 * 8) - 1 = 0xff#32 := by decide
    rw [pageFront_eq_one h, hlow]
    exact ⟨fun ⟨_, h⟩ => h, fun h => ⟨(), h⟩⟩
  · unfold lnaddrWrite ThreeWrite
    rw [if_neg hc, part_length_iff (hpart len data)]
    unfold Crosses at hc
    constructor
    · exact fun h => absurd hl h.1
    · omega

end Fails

end Lengths

end Nemu
