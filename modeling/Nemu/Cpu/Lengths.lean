/-
# Instructions and the assertions on a length

An instruction accesses memory with lengths that `swaddr_read`, `swaddr_write`
and `lnaddr_read` accept, whatever an earlier one left in the operand records.
The exceptions are `lgdt` and `lidt` at operand size 16, which read three bytes
of the base.

Key definitions: `descLimit`, `ShortBase`, `NoShortBase`.
Key theorems: `twoByteEsc_length_iff`, `exec_length_iff`, `lengths_iff`.
-/
import Nemu.Cpu.FlatBus
import Nemu.Cpu.Guarded
import Nemu.Memory.FlatMemory
import Nemu.Device.Vga
import Nemu.Memory.Lengths

namespace Nemu

open Bytes Cmd Instr

set_option synthInstance.maxSize 10000

section Lengths

variable {P : Type} [Bus P]

/-! ### The base of a descriptor table -/

/-- `lgdt` and `lidt` up to the read of the base: the length and the address of
the operand, and the limit. -/
def descLimit (eip : Word) : Cmd (Machine P) (Word × Word × Word) := do
  let len ← decodeRm2r .l (eip + 1)
  let addr ← read (·.loc .src)
  let limit ← lnaddrRead addr 2
  return (len, addr, limit)

instance (eip : Word) : Keeps (fun _ => True) (descLimit (P := P) eip) (· ≠ .length) := by
  unfold descLimit
  infer_instance

/-- At operand size 16 the read of the base fails. -/
theorem loadDescReg_length_iff {set : DescReg → Machine P → Machine P} {eip : Word} {m : Machine P} :
    loadDescReg .w set eip m = .abort .length ↔ ∃ r m', descLimit eip m = .ok r m' := by
  have hbase : loadDescReg .w set eip = descLimit eip >>= fun r => do
      let base ← lnaddrRead (r.2.1 + 2) 3
      write (set ⟨r.2.2.setWidth 16, base⟩)
      return r.1 + 1 := by
    unfold loadDescReg descLimit
    simp only [bind_assoc_cmd, pure_bind_cmd, if_pos]
  rw [hbase, bind_length_iff]
  exact exists_congr fun r => exists_congr fun m' => and_iff_left rfl

/-- The two-byte opcode 0x01 with the operand of `lgdt` or `lidt`, at operand size
16; the operand can be decoded, and the limit read. -/
inductive ShortBase (eip : Word) (m : Machine P) : Prop
  | intro {b r : Word} {m₁ m₂ m₃ : Machine P} {limit : Word × Word × Word}
    (hb : instrFetch (eip + 1) 1 m = .ok b m₁) (h1 : b.toNat = 1)
    (hr : instrFetch (eip + 1 + 1) 1 (m₁.setOpcode (b ||| 0x100)) = .ok r m₂)
    (h23 : (bits35 r).val = 2 ∨ (bits35 r).val = 3) (h16 : m₂.ops.isOperandSize16 = true)
    (hlimit : descLimit (eip + 1) m₂ = .ok limit m₃)

theorem helperV_length_iff {set : DescReg → Machine P → Machine P} [∀ r, Kept (fun _ => True) (set r)]
    {eip : Word} {m : Machine P} : helperV (loadDescReg · set) eip m = .abort .length ↔
      m.ops.isOperandSize16 = true ∧ ∃ r m', descLimit eip m = .ok r m' := by
  unfold helperV
  rw [read_bind_run]
  by_cases h16 : m.ops.isOperandSize16 = true
  · rw [if_pos h16, loadDescReg_length_iff]
    exact (and_iff_right h16).symm
  · rw [if_neg h16]
    exact iff_of_false (Keeps.ne_length m) fun h => h16 h.1

/-- The group of `lgdt` and `lidt`, without them. -/
theorem keeps_group7 {k : ℕ} (hk : k ∉ [2, 3]) (eip : Word) :
    Keeps (fun _ => True) (entry (group7 (P := P)) k eip) (· ≠ .length) := by
  have htable : TableKeeps (P := P) (fun _ => True) (· ≠ .length) (without group7 [2, 3]) := by
    unfold without group7
    simp only [List.foldl_cons, List.foldl_nil, List.set_cons_succ, List.set_cons_zero]
    infer_instance
  rw [← entry_without hk]
  infer_instance

set_option maxRecDepth 20000 in
/-- The two-byte opcodes fail an assertion on a length only there. -/
theorem twoByteEsc_length_iff {eip : Word} {m : Machine P} :
    twoByteEsc eip m = .abort .length ↔ ShortBase eip m := by
  unfold twoByteEsc
  rw [bind_length_iff]
  constructor
  · rintro ⟨b, m₁, hb, h⟩
    rw [write_bind_run] at h
    rcases bind_eq_abort.mp h with h | ⟨len, m₂, -, h⟩
    · by_cases h1 : b.toNat = 1
      · rw [h1] at h
        have hgroup : entry (opcodeTable2 (P := P)) 1 = group group7 := rfl
        rw [hgroup] at h
        unfold group at h
        obtain ⟨r, m₂, hr, h⟩ := bind_length_iff.mp h
        by_cases h23 : (bits35 r).val = 2 ∨ (bits35 r).val = 3
        · have hv : m₂.ops.isOperandSize16 = true ∧ ∃ r m', descLimit (eip + 1) m₂ = .ok r m' := by
            rcases h23 with h2 | h3
            · rw [h2] at h
              exact helperV_length_iff.mp h
            · rw [h3] at h
              exact helperV_length_iff.mp h
          obtain ⟨h16, limit, m₃, hlimit⟩ := hv
          exact .intro hb h1 hr h23 h16 hlimit
        · have hkeep := keeps_group7 (P := P) (k := (bits35 r).val) (by simpa using h23) (eip + 1)
          exact absurd h (Keeps.ne_length _)
      · have := keeps_opcodeTable2 (P := P) (I := fun _ => True) (E := (· ≠ .length)) h1 (eip + 1)
        exact absurd h (Keeps.ne_length _)
    · exact nomatch h
  · rintro @⟨b, r, m₁, m₂, m₃, limit, hb, h1, hr, h23, h16, hlimit⟩
    refine ⟨_, _, hb, ?_⟩
    rw [write_bind_run, h1]
    have hgroup : entry (opcodeTable2 (P := P)) 1 = group group7 := rfl
    rw [hgroup]
    refine bind_eq_abort.mpr (.inl ?_)
    unfold group
    refine bind_eq_abort.mpr (.inr ⟨_, _, hr, ?_⟩)
    have hv : m₂.ops.isOperandSize16 = true ∧ ∃ r m', descLimit (eip + 1) m₂ = .ok r m' :=
      ⟨h16, limit, m₃, hlimit⟩
    rcases h23 with h2 | h3
    · rw [h2]
      exact helperV_length_iff.mpr hv
    · rw [h3]
      exact helperV_length_iff.mpr hv

/-! ### Runs of instructions -/

instance : SregKept (P := P) fun _ => True := ⟨fun _ _ => inferInstance, fun _ _ => inferInstance⟩

/-- The instruction is not `lgdt` or `lidt` at operand size 16, or does not get to
the base. -/
def NoShortBase : Guard P := fun opcode eip m => ¬ (opcode.toNat = 0x0f ∧ ShortBase eip m)

/-- Without such an instruction no assertion on a length fails. -/
theorem execWhile_length (fuel : ℕ) (eip : Word) :
    Keeps (fun _ => True) (execWhile (P := P) NoShortBase fuel eip) (· ≠ .length) := by
  refine execWhile_keeps (fun opcode eip m hk hG _ => ?_) fuel eip
  unfold NoShortBase at hG
  refine instrAt_loose (C := fun k c => opcode.toNat = k →
    Ends (fun _ _ => True) (fun _ => True) (c eip m) (· ≠ .length)) hk ?_ ?_ ?_ ?_ ?_ ?_ ?_ rfl
  all_goals intro hop
  · exact ends_ne_length.mpr fun h => hG ⟨hop, twoByteEsc_length_iff.mp h⟩
  · exact Keeps.ends m trivial
  · exact Keeps.ends m trivial
  · unfold iret
    exact Keeps.ends m trivial
  · exact Keeps.ends m trivial
  · unfold cli
    exact Keeps.ends m trivial
  · unfold sti
    exact Keeps.ends m trivial

omit [Bus P] in
/-- The second command fails an assertion on a length. -/
theorem sticks_length : Sticks (fun _ : Machine P => True) fun _ _ o => o = .abort .length :=
  fun _ _ _ _ _ _ h _ => by
    rw [h]
    rfl

/-- Up to the first such instruction, and there one fails. -/
theorem execWhile_agree_length (fuel : ℕ) (eip : Word) :
    Agree (fun _ _ o => o = .abort .length) (execWhile (P := P) NoShortBase fuel eip)
      (execWhile (fun _ _ _ => True) fuel eip) := by
  refine execWhile_agree sticks_length (fun _ _ _ _ => trivial) (fun _ _ => inferInstance) ?_ fuel eip
  intro fuel opcode eip m _ hG
  obtain ⟨hop, hshort⟩ := not_not.mp hG
  have hesc : instrAt (P := P) opcode = twoByteEsc := by
    have hk : opcode.toNat ∈ loose := by rw [hop]; decide
    refine instrAt_loose (C := fun k c => opcode.toNat = k → c = twoByteEsc) hk (fun _ => rfl)
      ?_ ?_ ?_ ?_ ?_ ?_ rfl
    all_goals intro h; rw [hop] at h; exact absurd h (by decide)
  rw [entry_opcodeTable (by rw [hop]; decide) _ inv fuel 0, ← instrAt, hesc]
  exact twoByteEsc_length_iff.mpr hshort

/-- An instruction, with its prefixes and repetitions, fails no assertion on a
length exactly if it executes no `lgdt` or `lidt` that reads three bytes. -/
theorem exec_length_iff (fuel : ℕ) (eip : Word) (m : Machine P) :
    exec fuel eip m ≠ .abort .length ↔ execWhile NoShortBase fuel eip m = exec fuel eip m := by
  rw [← execWhile_true]
  constructor
  · exact fun h => (execWhile_agree_length fuel eip m).resolve_right h
  · intro h
    have hkeep := execWhile_length (P := P) fuel eip
    rw [← h]
    exact Keeps.ne_length m

end Lengths

/-! ### Accesses through a segment -/

section Segments

variable {δ : Type} (junk : ℕ → Byte) (oob : ℕ → ℕ → Byte) (srand0 : Memory δ → Memory δ)
  (rand : Memory δ → ℕ × Memory δ) (c : CpuState)

/-- `swaddr_read`, over that memory. -/
def swaddrReadMem (addr : Word) (len sreg : ℕ) : Cmd (Paging.Mmu (Memory δ)) Word :=
  if Lengths.LenOk len then
    if sreg < 4 then
      Lengths.lnaddrRead junk oob srand0 rand c.cr0 c.cr3 (c.linear addr (Fin.ofNat 6 sreg)) len
    else abort
  else fail .length

/-- `swaddr_write`. -/
def swaddrWriteMem (addr : Word) (len : ℕ) (data : Word) (sreg : ℕ) : Cmd (Paging.Mmu (Memory δ)) Unit :=
  if Lengths.LenOk len then
    if sreg < 4 then
      Lengths.lnaddrWrite junk oob srand0 rand c.cr0 c.cr3 (c.linear addr (Fin.ofNat 6 sreg)) len data
    else abort
  else fail .length

theorem lenOk_bytes (d : Width) : Lengths.LenOk d.bytes := by
  cases d
  · exact .inl rfl
  · exact .inr (.inl rfl)
  · exact .inr (.inr rfl)

/-- No assertion on a length fails, by an instruction itself or in an access,
exactly if no instruction reads three bytes of a base, and no access across a
page boundary has three bytes in an MMIO map. The accesses are those through a
segment, and those that an instruction makes itself, as `lgdt` and `lidt` do for
the four bytes of a base. -/
theorem lengths_iff :
    (∀ (P : Type) [Bus P] (fuel : ℕ) (eip : Word) (m : Machine P),
      exec fuel eip m ≠ .abort .length ↔ execWhile NoShortBase fuel eip m = exec fuel eip m) ∧
    (∀ (addr : Word) (d : Width) (sreg : ℕ) (s : Paging.Mmu (Memory δ)),
      (swaddrReadMem junk oob srand0 rand c addr d.bytes sreg s ≠ .abort .length ↔
        ¬ (sreg < 4 ∧ Lengths.ThreeRead junk oob srand0 rand c.cr0 c.cr3
          (c.linear addr (Fin.ofNat 6 sreg)) d.bytes s)) ∧
      ∀ data, swaddrWriteMem junk oob srand0 rand c addr d.bytes data sreg s ≠ .abort .length ↔
        ¬ (sreg < 4 ∧ Lengths.ThreeWrite junk oob srand0 rand c.cr0 c.cr3
          (c.linear addr (Fin.ofNat 6 sreg)) d.bytes data s)) ∧
    ∀ (lnaddr : Word) (d : Width) (s : Paging.Mmu (Memory δ)),
      (Lengths.lnaddrRead junk oob srand0 rand c.cr0 c.cr3 lnaddr d.bytes s ≠ .abort .length ↔
        ¬ Lengths.ThreeRead junk oob srand0 rand c.cr0 c.cr3 lnaddr d.bytes s) ∧
      ∀ data, Lengths.lnaddrWrite junk oob srand0 rand c.cr0 c.cr3 lnaddr d.bytes data s ≠ .abort .length ↔
        ¬ Lengths.ThreeWrite junk oob srand0 rand c.cr0 c.cr3 lnaddr d.bytes data s := by
  refine ⟨fun P _ => exec_length_iff, fun addr d sreg s => ⟨?_, fun data => ?_⟩, fun lnaddr d s =>
    ⟨not_congr (Lengths.lnaddrRead_length_iff (lenOk_bytes d)), fun data =>
      not_congr (Lengths.lnaddrWrite_length_iff (lenOk_bytes d))⟩⟩
  · rw [swaddrReadMem, if_pos (lenOk_bytes d)]
    by_cases hs : sreg < 4
    · rw [if_pos hs, Ne, Lengths.lnaddrRead_length_iff (lenOk_bytes d), and_iff_right hs]
    · rw [if_neg hs]
      exact iff_of_true nofun fun h => hs h.1
  · rw [swaddrWriteMem, if_pos (lenOk_bytes d)]
    by_cases hs : sreg < 4
    · rw [if_pos hs, Ne, Lengths.lnaddrWrite_length_iff (lenOk_bytes d), and_iff_right hs]
    · rw [if_neg hs]
      exact iff_of_true nofun fun h => hs h.1

end Segments

/-! ### Two failing inputs -/

/-- The memory with the window of the VGA adapter. -/
def vgaMemory : Memory Vga where
  cache := blankMemory.cache
  mmio := ⟨[⟨0xa0000, 0xbffff, 0, vgaVmemIoHandler⟩], fun _ => 0, 0x20000, ⟨fun _ => false, false⟩⟩

/-- `lgdt` with an operand-size prefix, and four bytes read from the window across
a page boundary. -/
theorem lengths_fail :
    exec 2 0 (flatMachine (fun _ => 0) [0x66, 0x0f, 0x01, 0x15, 0x10, 0, 0, 0]) = .abort .length ∧
    (∃ p, ∀ i < 4, isMmio vgaMemory.mmio (0xa0ffd + BitVec.ofNat 32 i) = some p) ∧
    swaddrReadMem (fun _ => 0) (fun _ _ => 0) id (fun m => (0, m)) (flatMachine (fun _ => 0) []).cpu
      0xa0ffd 4 3 ⟨vgaMemory, Paging.initTLB⟩ = .abort .length := by
  have hmap : ∀ i : Fin 4, isMmio vgaMemory.mmio (0xa0ffd + BitVec.ofNat 32 i.val) =
      some ⟨0xa0000, 0xbffff, 0, vgaVmemIoHandler⟩ := by
    intro i
    match i with
    | 0 => rfl
    | 1 => rfl
    | 2 => rfl
    | 3 => rfl
  exact ⟨rfl, ⟨_, fun i hi => hmap ⟨i, hi⟩⟩, rfl⟩

end Nemu
