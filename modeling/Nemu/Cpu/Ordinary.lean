/-
# What the instructions keep

An invariant that survives the changes of registers, flags, operand records and
the bus is kept by every instruction that makes no other. What is left are those
that load a segment register, `cli`, `sti` and `iret`, and the prefixes, which
execute another instruction.

The length of a write to an operand is the field `size`, which not every decoder
fills; `Decodes` says that a decoder leaves it valid where it is used, so that
an instruction need not rely on what an earlier one left there.

Key definitions: `CpuKept`, `SizedIn`, `Sized`, `Decodes`.
Key theorems: `keeps_opcodeTable`, `keeps_opcodeTable2`.
-/
import Nemu.Cpu.Exec
import Nemu.Cpu.Frame

namespace Nemu

open Bytes Cmd Instr

set_option synthInstance.maxSize 10000

section Keep

variable {P : Type}

/-- The registers may change, except for the segment registers and `IF`. -/
class CpuKept (I : Machine P → Prop) : Prop where
  setVal : ∀ (k : Slot) (v : Word), Kept I (Machine.setVal · k v)
  setReg : ∀ (d : Width) (i : Fin 8) (v : Word), Kept I (Machine.setReg · d i v)
  setFlag : ∀ (f : Flag) (b : Bool), f ≠ .IF → Kept I (Machine.setFlag · f b)
  setEip : ∀ v : Word, Kept I (Machine.setEip · v)
  setGdtr : ∀ d : DescReg, Kept I (Machine.setGdtr · d)
  setIdtr : ∀ d : DescReg, Kept I (Machine.setIdtr · d)
  setCr0 : ∀ v : Word, Kept I (Machine.setCr0 · v)
  setCr3 : ∀ v : Word, Kept I (Machine.setCr3 · v)
  setState : ∀ s : NemuState, Kept I (Machine.setState · s)
  setText : ∀ n : Fin 80, Kept I (Machine.setText · n)

/-- The general registers may change. -/
class RegsKept (I : Machine P → Prop) : Prop where
  setVal : ∀ (k : Slot) (v : Word), Kept I (Machine.setVal · k v)
  setReg : ∀ (d : Width) (i : Fin 8) (v : Word), Kept I (Machine.setReg · d i v)

/-- All but `eip` and the flags may. -/
class DataKept (I : Machine P → Prop) : Prop where
  setVal : ∀ (k : Slot) (v : Word), Kept I (Machine.setVal · k v)
  setReg : ∀ (d : Width) (i : Fin 8) (v : Word), Kept I (Machine.setReg · d i v)
  setGdtr : ∀ d : DescReg, Kept I (Machine.setGdtr · d)
  setIdtr : ∀ d : DescReg, Kept I (Machine.setIdtr · d)
  setCr0 : ∀ v : Word, Kept I (Machine.setCr0 · v)
  setCr3 : ∀ v : Word, Kept I (Machine.setCr3 · v)
  setState : ∀ s : NemuState, Kept I (Machine.setState · s)

/-- The flags other than `IF` may change. -/
class FlagsKept (I : Machine P → Prop) : Prop where
  setFlag : ∀ (f : Flag) (b : Bool), f ≠ .IF → Kept I (Machine.setFlag · f b)

/-- The flags of a result may change. -/
class StatusKept (I : Machine P → Prop) : Prop where
  setFlag : ∀ (f : Flag) (b : Bool), f ≠ .IF → f ≠ .DF → Kept I (Machine.setFlag · f b)

/-- `eip` may change. -/
class EipKept (I : Machine P → Prop) : Prop where
  setEip : ∀ v : Word, Kept I (Machine.setEip · v)

attribute [instance] RegsKept.setVal RegsKept.setReg DataKept.setGdtr DataKept.setIdtr
  DataKept.setCr0 DataKept.setCr3 DataKept.setState EipKept.setEip CpuKept.setText

instance {I : Machine P → Prop} [h : CpuKept I] : DataKept I :=
  ⟨h.setVal, h.setReg, h.setGdtr, h.setIdtr, h.setCr0, h.setCr3, h.setState⟩
instance {I : Machine P → Prop} [h : DataKept I] : RegsKept I := ⟨h.setVal, h.setReg⟩
instance {I : Machine P → Prop} [h : CpuKept I] : FlagsKept I := ⟨h.setFlag⟩
instance {I : Machine P → Prop} [h : FlagsKept I] : StatusKept I := ⟨fun f b hf _ => h.setFlag f b hf⟩
instance {I : Machine P → Prop} [h : CpuKept I] : EipKept I := ⟨h.setEip⟩

instance : OpsKept (P := P) fun _ => True :=
  ⟨fun _ _ => inferInstance, fun _ _ => inferInstance, fun _ _ => inferInstance,
    fun _ _ => inferInstance, fun _ _ => inferInstance, fun _ _ => inferInstance,
    fun _ _ => inferInstance, fun _ => inferInstance, fun _ => inferInstance⟩

instance : CpuKept (P := P) fun _ => True :=
  ⟨fun _ _ => inferInstance, fun _ _ _ => inferInstance, fun _ _ _ => inferInstance,
    fun _ => inferInstance, fun _ => inferInstance, fun _ => inferInstance,
    fun _ => inferInstance, fun _ => inferInstance, fun _ => inferInstance, fun _ => inferInstance⟩

variable {I : Machine P → Prop} {E : Failure → Prop}

section Flags

instance [h : FlagsKept I] (b : Bool) : Kept I (Machine.setFlag · .DF b) := h.setFlag .DF b (by decide)

variable [h : StatusKept I] (b : Bool)

instance : Kept I (Machine.setFlag · .CF b) := h.setFlag .CF b (by decide) (by decide)
instance : Kept I (Machine.setFlag · .PF b) := h.setFlag .PF b (by decide) (by decide)
instance : Kept I (Machine.setFlag · .ZF b) := h.setFlag .ZF b (by decide) (by decide)
instance : Kept I (Machine.setFlag · .SF b) := h.setFlag .SF b (by decide) (by decide)
instance : Kept I (Machine.setFlag · .OF b) := h.setFlag .OF b (by decide) (by decide)

end Flags

/-! ### The size of an operand -/

/-- An operand in memory has an accepted size, or the assertion on it may fail. -/
class SizedIn (I : Machine P → Prop) (E : Failure → Prop) (k : Slot) : Prop where
  sized : ∀ m, I m → m.type k = .mem → LenOk E (m.operand k).size

instance (k : Slot) : SizedIn I (fun _ => True) k := ⟨fun _ _ _ => inferInstance⟩

instance (i : Word) [Allows E .assertion] : Keeps I (checkRegIndex (P := P) i) E := by
  unfold checkRegIndex
  infer_instance

instance [Bus P] [RegsKept I] [hb : BusKept I E] (d : Width) (k : Slot) (v : Word) [hs : SizedIn I E k] :
    Keeps I (writeOperand d k v) E := by
  have := hb.assertion
  refine ⟨fun m hm => ?_⟩
  unfold writeOperand
  rw [read_bind_run, read_bind_run]
  by_cases hr : m.type k = .reg
  · rw [if_pos hr]
    exact Keeps.ends m hm
  · rw [if_neg hr]
    by_cases hmem : m.type k = .mem
    · have := hs.sized m hm hmem
      rw [if_pos hmem, read_bind_run, read_bind_run]
      exact Keeps.ends m hm
    · rw [if_neg hmem]
      exact Keeps.ends m hm

/-- The operand is not in memory, or has an accepted size. -/
def SlotOk (k : Slot) (m : Machine P) : Prop :=
  m.type k = .mem → LenOk (· ≠ .length) (m.operand k).size

/-- The operands of these slots have accepted sizes. -/
def Sized (ks : Slot → Bool) (m : Machine P) : Prop := ∀ k, ks k = true → SlotOk k m

section SlotOk

variable {m : Machine P} {k k' : Slot}

/-- A change of one record that keeps its type and size. -/
theorem SlotOk.setOperand {o : Operand} (h : SlotOk k m)
    (ho : o.type = .mem → k = k' → LenOk (· ≠ .length) o.size) : SlotOk k (m.setOperand k' o) := by
  intro ht
  simp only [Machine.type, Machine.operand_setOperand] at ht ⊢
  by_cases hk : k = k'
  · rw [if_pos hk] at ht ⊢
    exact ho ht hk
  · rw [if_neg hk] at ht ⊢
    exact h ht

instance (v : Word) : Kept (SlotOk (P := P) k) (Machine.setVal · k' v) :=
  ⟨fun _ h => h.setOperand fun ht hk => by subst hk; exact h ht⟩
instance (v : Word) : Kept (SlotOk (P := P) k) (Machine.setLoc · k' v) :=
  ⟨fun _ h => h.setOperand fun ht hk => by subst hk; exact h ht⟩
instance (n : ℕ) : Kept (SlotOk (P := P) k) (Machine.setOpSreg · k' n) :=
  ⟨fun _ h => h.setOperand fun ht hk => by subst hk; exact h ht⟩
instance : Kept (SlotOk (P := P) k) (Machine.setType · k' .reg) :=
  ⟨fun _ h => h.setOperand fun ht => nomatch ht⟩
instance : Kept (SlotOk (P := P) k) (Machine.setType · k' .imm) :=
  ⟨fun _ h => h.setOperand fun ht => nomatch ht⟩
instance (b : P) : Kept (SlotOk k) (Machine.setBus · b) := ⟨fun _ h => h⟩
instance : RegKept (SlotOk (P := P) k) k' := ⟨inferInstance, inferInstance, inferInstance⟩

end SlotOk

section Sized

variable {ks : Slot → Bool}

instance : CpuKept (P := P) (Sized ks) where
  setVal k v := ⟨fun m h k' hk => Kept.kept (g := (Machine.setVal · k v)) m (h k' hk)⟩
  setReg d _ _ := ⟨fun m h => by cases d <;> exact h⟩
  setFlag _ _ _ := ⟨fun _ h => h⟩
  setEip _ := ⟨fun _ h => h⟩
  setGdtr _ := ⟨fun _ h => h⟩
  setIdtr _ := ⟨fun _ h => h⟩
  setCr0 _ := ⟨fun _ h => h⟩
  setCr3 _ := ⟨fun _ h => h⟩
  setState _ := ⟨fun _ h => h⟩
  setText _ := ⟨fun _ h => h⟩

instance (b : P) : Kept (Sized ks) (Machine.setBus · b) := ⟨fun _ h => h⟩

instance [h : DataKept I] : DataKept (Both I (Sized ks)) where
  setVal k v := (h.setVal k v).both (CpuKept.setVal k v)
  setReg d i v := (h.setReg d i v).both (CpuKept.setReg d i v)
  setGdtr v := (h.setGdtr v).both (CpuKept.setGdtr v)
  setIdtr v := (h.setIdtr v).both (CpuKept.setIdtr v)
  setCr0 v := (h.setCr0 v).both (CpuKept.setCr0 v)
  setCr3 v := (h.setCr3 v).both (CpuKept.setCr3 v)
  setState v := (h.setState v).both (CpuKept.setState v)

instance [h : RegsKept I] : RegsKept (Both I (Sized ks)) where
  setVal k v := (h.setVal k v).both (CpuKept.setVal k v)
  setReg d i v := (h.setReg d i v).both (CpuKept.setReg d i v)

instance [h : FlagsKept I] : FlagsKept (Both I (Sized ks)) :=
  ⟨fun f b hf => (h.setFlag f b hf).both (CpuKept.setFlag f b hf)⟩

instance [h : StatusKept I] : StatusKept (Both I (Sized ks)) :=
  ⟨fun f b hf hd => (h.setFlag f b hf hd).both (CpuKept.setFlag f b hf)⟩

instance [h : EipKept I] : EipKept (Both I (Sized ks)) := ⟨fun v => (h.setEip v).both (CpuKept.setEip v)⟩

instance [Bus P] [h : ReadKept I E] : ReadKept (Both I (Sized ks)) E where
  assertion := h.assertion
  lnaddrRead addr len := (h.lnaddrRead addr len).both inferInstance

instance [Bus P] [h : BusKept I E] : BusKept (Both I (Sized ks)) E where
  assertion := h.assertion
  lnaddrRead addr len := (h.lnaddrRead addr len).both inferInstance
  lnaddrWrite addr len data := (h.lnaddrWrite addr len data).both inferInstance
  pioRead addr len := (h.pioRead addr len).both inferInstance
  pioWrite addr len data := (h.pioWrite addr len data).both inferInstance
  i8259AckIntr := h.i8259AckIntr.both inferInstance
  initTLB := h.initTLB.both inferInstance

theorem LenOk.mono {len : ℕ} (h : LenOk (· ≠ .length) len) : LenOk E len :=
  ⟨by
    rcases h.ok with h | h | h | h
    · exact .inl h
    · exact .inr (.inl h)
    · exact .inr (.inr (.inl h))
    · exact absurd rfl h⟩

instance (k : Slot) [hk : Fact (ks k = true)] : SizedIn (Both I (Sized (P := P) ks)) E k :=
  ⟨fun _ h ht => (h.2 k hk.out ht).mono⟩

end Sized

/-! ### What the decoders leave -/

/-- The decoder leaves accepted sizes in these slots. -/
class Decodes [Bus P] (decode : Helper P) (ks : outParam (Slot → Bool)) : Prop where
  sized : ∀ eip m, Ends (fun _ => Sized ks) (fun _ => True) (decode eip m)

def srcSlot (k : Slot) : Bool := k == .src
def srcDest (k : Slot) : Bool := k != .src2
def allSlots (_ : Slot) : Bool := true

instance : Fact (srcSlot .src = true) := ⟨rfl⟩
instance : Fact (srcDest .src = true) := ⟨rfl⟩
instance : Fact (srcDest .dest = true) := ⟨rfl⟩
instance (k : Slot) : Fact (allSlots k = true) := ⟨rfl⟩

section Decodes

/-- The size of a record, and its type. -/
def SizeIs (k : Slot) (n : ℕ) (m : Machine P) : Prop := (m.operand k).size = n
def TypeIs (k : Slot) (t : OpType) (m : Machine P) : Prop := m.type k = t

theorem SizeIs.setOperand {m : Machine P} {k k' : Slot} {n : ℕ} {o : Operand} (h : SizeIs k n m)
    (ho : k = k' → o.size = n) : SizeIs k n (m.setOperand k' o) := by
  unfold SizeIs
  rw [Machine.operand_setOperand]
  split
  · next hk => exact ho hk
  · exact h

theorem TypeIs.setOperand {m : Machine P} {k k' : Slot} {t : OpType} {o : Operand} (h : TypeIs k t m)
    (ho : k = k' → o.type = t) : TypeIs k t (m.setOperand k' o) := by
  unfold TypeIs Machine.type
  rw [Machine.operand_setOperand]
  split
  · next hk => exact ho hk
  · exact h

variable {k k' rm reg : Slot}

instance (n : ℕ) : RmKept (SizeIs (P := P) k n) k' where
  setType _ := ⟨fun _ h => h.setOperand fun hk => by subst hk; exact h⟩
  setLoc _ := ⟨fun _ h => h.setOperand fun hk => by subst hk; exact h⟩
  setOpSreg _ := ⟨fun _ h => h.setOperand fun hk => by subst hk; exact h⟩
  setVal _ := ⟨fun _ h => h.setOperand fun hk => by subst hk; exact h⟩

instance (n : ℕ) : RegKept (SizeIs (P := P) k n) k' :=
  ⟨RmKept.setType _, RmKept.setLoc, RmKept.setVal⟩

instance (n : ℕ) (b : P) : Kept (SizeIs k n) (Machine.setBus · b) := ⟨fun _ h => h⟩

instance (t : OpType) [hne : Fact (k ≠ k')] : RmKept (TypeIs (P := P) k t) k' where
  setType _ := ⟨fun _ h => h.setOperand fun hk => absurd hk hne.out⟩
  setLoc _ := ⟨fun _ h => h.setOperand fun hk => absurd hk hne.out⟩
  setOpSreg _ := ⟨fun _ h => h.setOperand fun hk => absurd hk hne.out⟩
  setVal _ := ⟨fun _ h => h.setOperand fun hk => absurd hk hne.out⟩

instance : RegKept (TypeIs (P := P) k .reg) k where
  setType := ⟨fun _ h => h.setOperand fun _ => rfl⟩
  setLoc _ := ⟨fun _ h => h.setOperand fun _ => h⟩
  setVal _ := ⟨fun _ h => h.setOperand fun _ => h⟩

instance (t : OpType) (b : P) : Kept (TypeIs k t) (Machine.setBus · b) := ⟨fun _ h => h⟩

variable (d : Width)

/-- An operand that is set to a register or an immediate is not in memory. -/
theorem SlotOk.setType {m : Machine P} {t : OpType} (ht : t ≠ .mem) (h : k = k' ∨ SlotOk k m) :
    SlotOk k (m.setType k' t) := by
  intro hmem
  rcases h with rfl | h
  · simp only [Machine.type, Machine.setType, Machine.operand_setOperand, if_true] at hmem
    exact absurd hmem ht
  · exact h.setOperand (fun h' => absurd h' ht) hmem

theorem setRegOperand_sized {m : Machine P} {i : Fin 8} (h : k = k' ∨ SlotOk k m) :
    Ends (fun _ => SlotOk k) (fun _ => True) (setRegOperand d k' i m) := by
  unfold setRegOperand
  rw [write_bind_run]
  exact Keeps.post (SlotOk.setType (by decide) h)

variable [Bus P] (eip : Word)

theorem decodeI_sized {m : Machine P} (h : k = .src ∨ SlotOk k m) :
    Ends (fun _ => SlotOk k) (fun _ => True) (decodeI d eip m) := by
  unfold decodeI
  rw [write_bind_run]
  exact Keeps.post (SlotOk.setType (by decide) h)

theorem decodeSi_sized {m : Machine P} (h : k = .src ∨ SlotOk k m) :
    Ends (fun _ => SlotOk k) (fun _ => True) (decodeSi d eip m) := by
  unfold decodeSi
  rw [write_bind_run]
  exact Keeps.post (SlotOk.setType (by decide) h)

/-- The operand that may be in memory gets the size of the instruction. -/
theorem decodeRmInternal_size (m : Machine P) :
    Ends (fun _ => SizeIs rm d.bytes) (fun _ => True) (decodeRmInternal d eip rm reg m) := by
  unfold decodeRmInternal
  rw [write_bind_run]
  refine Keeps.post ?_
  unfold SizeIs Machine.setSize
  rw [Machine.operand_setOperand, if_pos rfl]

/-- And the other one is in a register. -/
theorem decodeRmInternal_sized (hne : reg ≠ rm) {m : Machine P} (hk : k = rm ∨ k = reg) :
    Ends (fun _ => SlotOk k) (fun _ => True) (decodeRmInternal d eip rm reg m) := by
  have : Fact (reg ≠ rm) := ⟨hne⟩
  have htype : Ends (fun _ => TypeIs reg .reg) (fun _ => True)
      (decodeRmInternal d eip rm reg m) := by
    unfold decodeRmInternal readModRM
    rw [write_bind_run]
    refine Ends.bind (Q := fun _ => TypeIs reg .reg) ?_ fun r m h => Keeps.post h
    have hfetch : Ends (fun _ _ => True) (fun _ => True) (instrFetch eip 1 (m.setSize rm d.bytes)) :=
      (swaddrRead_ends eip 1 1 (m.setSize rm d.bytes)).mono (fun _ _ _ => trivial) fun _ _ => trivial
    refine hfetch.bind fun v m _ => ?_
    dsimp only
    rw [write_bind_run]
    refine Keeps.post ?_
    unfold TypeIs Machine.type Machine.setType
    rw [Machine.operand_setOperand, if_pos rfl]
  refine ((decodeRmInternal_size d eip m).and htype).mono (fun _ m' h ht => ?_) fun _ _ => trivial
  rcases hk with rfl | rfl
  · rw [h.1]
    infer_instance
  · rw [h.2] at ht
    exact nomatch ht

omit [Bus P] in
/-- Sizes are accepted slot by slot. -/
theorem ends_sized {α : Type} {ks : Slot → Bool} {o : Outcome (Machine P) α}
    (h : ∀ k, ks k = true → Ends (fun _ => SlotOk k) (fun _ => True) o) :
    Ends (fun _ => Sized ks) (fun _ => True) o := by
  cases o with
  | ok a m => exact h
  | jump m => trivial
  | abort e => trivial
  | outOfFuel => trivial

theorem Decodes.of_slots {decode : Helper P} {ks : Slot → Bool}
    (h : ∀ k, ks k = true → ∀ eip m, Ends (fun _ => SlotOk k) (fun _ => True) (decode eip m)) :
    Decodes decode ks :=
  ⟨fun eip m => ends_sized fun k hk => h k hk eip m⟩

instance : Decodes (P := P) (decodeR2rm d) srcDest := by
  refine .of_slots fun k hk eip m => decodeRmInternal_sized d eip (by decide) ?_
  cases k <;> simp_all [srcDest]

instance : Decodes (P := P) (decodeRm2r d) srcDest := by
  refine .of_slots fun k hk eip m => decodeRmInternal_sized d eip (by decide) ?_
  cases k <;> simp_all [srcDest]

instance : Decodes (P := P) (decodeI2a d) srcDest := by
  refine .of_slots fun k hk eip m => ?_
  unfold decodeI2a decodeA
  refine (Ends.or fun hs => setRegOperand_sized d (.inl ?_)).bind fun _ _ h => decodeI_sized d eip h
  cases k <;> simp_all [srcDest]

instance : Decodes (P := P) (decodeI2r d) srcDest := by
  refine .of_slots fun k hk eip m => ?_
  unfold decodeI2r decodeRInternal
  rw [bind_assoc_cmd, read_bind_run]
  refine (Ends.or fun hs => setRegOperand_sized d (.inl ?_)).bind fun _ _ h => decodeI_sized d eip h
  cases k <;> simp_all [srcDest]

instance : Decodes (P := P) (decodeI2rm d) allSlots := by
  refine .of_slots fun k _ eip m => ?_
  unfold decodeI2rm
  refine (Ends.or fun hs => decodeRmInternal_sized d eip (by decide) ?_).bind fun len _ h =>
    (decodeI_sized d _ h).bind fun _ _ h => h
  cases k <;> simp_all

instance : Decodes (P := P) (decodeIRm2r d) allSlots := by
  refine .of_slots fun k _ eip m => ?_
  unfold decodeIRm2r
  refine (Ends.or fun hs => decodeRmInternal_sized d eip (by decide) ?_).bind fun len _ h =>
    (decodeI_sized d _ h).bind fun _ _ h => h
  cases k <;> simp_all

instance : Decodes (P := P) (decodeSi2rm d) allSlots := by
  refine .of_slots fun k _ eip m => ?_
  unfold decodeSi2rm
  refine (Ends.or fun hs => decodeRmInternal_sized d eip (by decide) ?_).bind fun len _ h =>
    (decodeSi_sized .b _ h).bind fun _ _ h => h
  cases k <;> simp_all

instance : Decodes (P := P) (decodeSiRm2r d) allSlots := by
  refine .of_slots fun k _ eip m => ?_
  unfold decodeSiRm2r
  refine (Ends.or fun hs => decodeRmInternal_sized d eip (by decide) ?_).bind fun len _ h =>
    (decodeSi_sized .b _ h).bind fun _ _ h => h
  cases k <;> simp_all

instance : Decodes (P := P) (decodeRm d) srcSlot := by
  refine .of_slots fun k hk eip m => decodeRmInternal_sized d eip (by decide) ?_
  cases k <;> simp_all [srcSlot]

instance : Decodes (P := P) (decodeR d) srcSlot := by
  refine .of_slots fun k hk eip m => ?_
  unfold decodeR decodeRInternal
  rw [bind_assoc_cmd, read_bind_run]
  refine (setRegOperand_sized d (.inl ?_)).bind fun _ _ h => h
  cases k <;> simp_all [srcSlot]

/-- The shifts decode a register or memory, and then a count into `op_src`. -/
theorem r2rm_sized (eip : Word) {m : Machine P} (hk : srcDest k = true) :
    Ends (fun _ => SlotOk k) (fun _ => True) (decodeR2rm d eip m) := by
  refine decodeRmInternal_sized d eip (by decide) ?_
  cases k <;> simp_all [srcDest]

instance : Decodes (P := P) (decodeRm1 d) srcDest := by
  refine .of_slots fun k hk eip m => ?_
  unfold decodeRm1
  refine (r2rm_sized d eip hk).bind fun _ m h => ?_
  rw [write_bind_run]
  exact Keeps.post (SlotOk.setType (by decide) (.inr h))

instance : Decodes (P := P) (decodeRmCl d) srcDest := by
  refine .of_slots fun k hk eip m => ?_
  unfold decodeRmCl
  exact (r2rm_sized d eip hk).bind fun _ m h =>
    (setRegOperand_sized .b (.inr h)).bind fun _ _ h => h

instance : Decodes (P := P) (decodeRmImm d) srcDest := by
  refine .of_slots fun k hk eip m => ?_
  unfold decodeRmImm
  exact (r2rm_sized d eip hk).bind fun _ m h =>
    (decodeI_sized .b _ (.inr h)).bind fun _ _ h => h

end Decodes

/-! ### The second half of an instruction -/

section Execute

section Flags

variable [StatusKept I]

instance (d : Width) (r : Word) : Keeps I (setResultFlags (P := P) d r) E := by
  unfold setResultFlags
  infer_instance

instance (d : Width) (x y r : Word) : Keeps I (setAddFlags (P := P) d x y r) E := by
  unfold setAddFlags
  infer_instance

instance (d : Width) (c : Bool) (x y r : Word) : Keeps I (setSubFlags (P := P) d c x y r) E := by
  unfold setSubFlags
  infer_instance

instance (d : Width) (r : Word) : Keeps I (setLogicFlags (P := P) d r) E := by
  unfold setLogicFlags
  infer_instance

end Flags

variable [RegsKept I]

instance (d : Width) (r : ℤ) : Keeps I (setDouble (P := P) d r) E := by
  unfold setDouble
  infer_instance

instance (d : Width) (b q r : ℤ) [Allows E .assertion] : Keeps I (setQuotient (P := P) d b q r) E := by
  unfold setQuotient
  infer_instance

instance (d : Width) (i : Fin 8) : Keeps I (stepIndex (P := P) d i) E := by
  unfold stepIndex
  infer_instance

variable [Bus P] (d : Width)

section Reads

variable [hb : ReadKept I E]

instance : Keeps I (doMul (P := P) d) E := by unfold doMul; infer_instance
instance : Keeps I (doDiv (P := P) d) E := by
  have := hb.assertion
  unfold doDiv
  infer_instance
instance : Keeps I (doIdiv (P := P) d) E := by
  have := hb.assertion
  unfold doIdiv
  dsimp only
  infer_instance
instance (i : Fin 8) : Keeps I (popReg (P := P) d i) E := by unfold popReg; infer_instance
instance : Keeps I (doLods (P := P) d) E := by unfold doLods; infer_instance

instance [∀ b, Kept I (Machine.setFlag · .CF b)] : Keeps I (doBt (P := P) d) E := by
  unfold doBt
  infer_instance

variable [StatusKept I]

instance : Keeps I (doCmp (P := P) d) E := by unfold doCmp; infer_instance
instance : Keeps I (doTest (P := P) d) E := by unfold doTest; infer_instance
instance : Keeps I (doScas (P := P) d) E := by unfold doScas; infer_instance

end Reads

variable [hb : BusKept I E]

section Flags

variable [StatusKept I]

instance [SizedIn I E .dest] : Keeps I (doAdd (P := P) d) E := by unfold doAdd; infer_instance
instance [SizedIn I E .dest] : Keeps I (doAdc (P := P) d) E := by unfold doAdc; infer_instance
instance [SizedIn I E .dest] : Keeps I (doSub (P := P) d) E := by unfold doSub; infer_instance
instance [SizedIn I E .dest] : Keeps I (doSbb (P := P) d) E := by
  unfold doSbb
  dsimp only
  infer_instance
instance (f : Word → Word → Word) [SizedIn I E .dest] : Keeps I (doLogic (P := P) d f) E := by
  unfold doLogic
  infer_instance
instance [SizedIn I E .dest] : Keeps I (doAnd (P := P) d) E := by unfold doAnd; infer_instance
instance [SizedIn I E .dest] : Keeps I (doOr (P := P) d) E := by unfold doOr; infer_instance
instance [SizedIn I E .dest] : Keeps I (doXor (P := P) d) E := by unfold doXor; infer_instance
instance [SizedIn I E .src] : Keeps I (doInc (P := P) d) E := by unfold doInc; infer_instance
instance [SizedIn I E .src] : Keeps I (doDec (P := P) d) E := by unfold doDec; infer_instance
instance [SizedIn I E .src] : Keeps I (doNot (P := P) d) E := by unfold doNot; infer_instance
instance (c : Word → Bool) (f : Word → ℕ → Word) [SizedIn I E .dest] :
    Keeps I (doShift (P := P) d c f) E := by
  unfold doShift
  infer_instance
instance [SizedIn I E .dest] : Keeps I (doShl (P := P) d) E := by unfold doShl; infer_instance
instance [SizedIn I E .dest] : Keeps I (doShr (P := P) d) E := by unfold doShr; infer_instance
instance [SizedIn I E .dest] : Keeps I (doSar (P := P) d) E := by unfold doSar; infer_instance

end Flags

instance [SizedIn I E .src] : Keeps I (doNeg (P := P) d) E := by unfold doNeg; infer_instance
instance [SizedIn I E .src2] : Keeps I (doShrd (P := P) d) E := by unfold doShrd; infer_instance
instance [SizedIn I E .dest] : Keeps I (doImul (P := P) d) E := by unfold doImul; infer_instance
instance [SizedIn I E .dest] : Keeps I (doMov (P := P) d) E := by unfold doMov; infer_instance
instance [SizedIn I E .src] [SizedIn I E .dest] : Keeps I (doXchg (P := P) d) E := by
  unfold doXchg
  infer_instance
instance : Keeps I (doPush (P := P) d) E := by
  unfold doPush
  dsimp only
  infer_instance
instance [SizedIn I E .src] : Keeps I (doPop (P := P) d) E := by unfold doPop; infer_instance
instance (v : Word) : Keeps I (pushReg (P := P) d v) E := by unfold pushReg; infer_instance
instance : Keeps I (doMovs (P := P) d) E := by unfold doMovs; infer_instance
instance : Keeps I (doStos (P := P) d) E := by unfold doStos; infer_instance

end Execute

/-! ### Instructions -/

section Helpers

variable [Bus P]

/-- After a decoder, the rest may rely on the sizes. -/
theorem Keeps.after_decode {β : Type} {decode : Helper P} {ks : Slot → Bool} {eip : Word}
    {k : Word → Cmd (Machine P) β} [hd : Decodes decode ks] [hI : Keeps I (decode eip) E]
    [hk : ∀ a, Keeps (Both I (Sized ks)) (k a) E] : Keeps I (decode eip >>= k) E := by
  refine ⟨fun m hm => ?_⟩
  have hpost : Ends (fun _ => Both I (Sized ks)) I (decode eip m) E :=
    ((hI.ends m hm).and (hd.sized eip m)).mono (fun _ _ h => h) fun _ h => h.1
  exact hpost.bind fun a m' h => ((hk a).ends m' h).mono (fun _ _ h => h.1) fun _ h => h.1

instance (decode : Helper P) (execute : Cmd (Machine P) Unit) (eip : Word)
    [∀ eip, Keeps I (decode eip) E] [Keeps I execute E] : Keeps I (idex decode execute eip) E := by
  unfold idex
  infer_instance

instance (decode : Helper P) (ks : Slot → Bool) (execute : Cmd (Machine P) Unit) (eip : Word)
    [Decodes decode ks] [∀ eip, Keeps I (decode eip) E] [Keeps (Both I (Sized ks)) execute E] :
    Keeps I (idex decode execute eip) E := by
  unfold idex
  exact Keeps.after_decode

instance (h : Width → Helper P) (eip : Word) [∀ d, Keeps I (h d eip) E] :
    Keeps I (helperV h eip) E := by
  unfold helperV
  infer_instance

variable [DecodeKept I] [RegsKept I] (d : Width) (eip : Word)

section Reads

variable [hb : ReadKept I E]

instance : Keeps I (movMoffs2a (P := P) d eip) E := by unfold movMoffs2a; infer_instance
instance : Keeps I (movCr2r (P := P) eip) E := by unfold movCr2r; infer_instance
instance (s : Width) (f : Word → Word) : Keeps I (movExt (P := P) s f d eip) E := by
  have := hb.assertion
  unfold movExt
  infer_instance
instance : Keeps I (movzb (P := P) d eip) E := by unfold movzb; infer_instance
instance : Keeps I (movsb (P := P) d eip) E := by unfold movsb; infer_instance
instance : Keeps I (movzwL (P := P) eip) E := by unfold movzwL; infer_instance
instance : Keeps I (movswL (P := P) eip) E := by unfold movswL; infer_instance
instance : Keeps I (lea (P := P) eip) E := by unfold lea; infer_instance
instance : Keeps I (cltd (P := P) d eip) E := by unfold cltd; infer_instance
instance : Keeps I (cwtl (P := P) d eip) E := by
  unfold cwtl
  dsimp only
  infer_instance
instance [∀ b, Kept I (Machine.setFlag · .CF b)] : Keeps I (btR2rm (P := P) d eip) E := by
  unfold btR2rm
  infer_instance
instance [∀ b, Kept I (Machine.setFlag · .CF b)] : Keeps I (btI2rm (P := P) d eip) E := by
  unfold btI2rm
  infer_instance
instance : Keeps I (popa (P := P) d eip) E := by unfold popa; infer_instance
instance : Keeps I (leave (P := P) eip) E := by unfold leave; infer_instance
instance : Keeps I (nextAddr (P := P) d eip) E := by unfold nextAddr; infer_instance
instance (c : Cc) [EipKept I] : Keeps I (jcc (P := P) d c eip) E := by unfold jcc; infer_instance
instance [EipKept I] : Keeps I (doJmp (P := P) d) E := by unfold doJmp; infer_instance
instance [EipKept I] : Keeps I (retO (P := P) d eip) E := by unfold retO; infer_instance
instance [EipKept I] : Keeps I (hlt (P := P) eip) E := by unfold hlt; infer_instance
instance [FlagsKept I] : Keeps I (cld (P := P) eip) E := by unfold cld; infer_instance
instance [FlagsKept I] : Keeps I (std (P := P) eip) E := by unfold std; infer_instance
instance : Keeps I (nop (P := P) eip) E := by unfold nop; infer_instance
instance : Keeps I (inv (P := P) eip) E := by
  have := hb.assertion
  unfold inv
  infer_instance
instance : Keeps I (imulRm2a (P := P) d eip) E := by unfold imulRm2a; infer_instance

end Reads

variable [hb : BusKept I E]

instance : Keeps I (movA2moffs (P := P) d eip) E := by unfold movA2moffs; infer_instance
instance [DataKept I] : Keeps I (movR2cr (P := P) eip) E := by unfold movR2cr; infer_instance
instance : Keeps I (pusha (P := P) d eip) E := by unfold pusha; infer_instance
instance (c : Cc) : Keeps I (setcc (P := P) c eip) E := by
  unfold setcc
  exact Keeps.after_decode
instance (check : Machine P → Bool) : Keeps I (cmov d check eip) E := by
  unfold cmov
  exact Keeps.after_decode
instance : Keeps I (cmove (P := P) d eip) E := by unfold cmove; infer_instance
instance : Keeps I (cmovle (P := P) d eip) E := by unfold cmovle; infer_instance
instance [EipKept I] : Keeps I (callI (P := P) d eip) E := by unfold callI; infer_instance
instance [EipKept I] : Keeps I (callRm (P := P) d eip) E := by unfold callRm; infer_instance
instance [EipKept I] : Keeps I (retI (P := P) d eip) E := by unfold retI; infer_instance
instance : Keeps I (inI (P := P) d eip) E := by unfold inI; infer_instance
instance : Keeps I (inD (P := P) d eip) E := by unfold inD; infer_instance
instance : Keeps I (outI (P := P) d eip) E := by unfold outI; infer_instance
instance : Keeps I (outD (P := P) d eip) E := by unfold outD; infer_instance
instance [DataKept I] : Keeps I (int3 (P := P) eip) E := by unfold int3; infer_instance
instance [DataKept I] : Keeps I (nemuTrap (P := P) eip) E := by unfold nemuTrap; infer_instance
instance : Keeps I (shrdi (P := P) d eip) E := by
  have := hb.assertion
  unfold shrdi
  exact Keeps.after_decode

instance : Keeps I (imulRm2r (P := P) d eip) E := by
  unfold imulRm2r
  have hcopy : Kept (Both I (Sized srcDest)) fun m : Machine P => m.setOperand .src2 (m.operand .dest) :=
    Kept.both inferInstance ⟨fun m h k hk => (h k hk).setOperand fun _ hs => by
      subst hs
      exact nomatch hk⟩
  exact Keeps.after_decode

/-- Both operands of `xchg` are registers here. -/
instance : Keeps I (xchgA2r (P := P) d eip) E := by
  refine ⟨fun m hm => ?_⟩
  unfold xchgA2r
  have hsrc : Ends (fun _ => Both I (Sized srcSlot)) I (decodeR d eip m) E :=
    ((Keeps.ends m hm).and (Decodes.sized eip m)).mono (fun _ _ h => h) fun _ h => h.1
  refine hsrc.bind fun _ m h => ?_
  have hsized : Ends (fun _ => Sized srcDest) (fun _ => True) (setRegOperand d .dest rEAX m) := by
    refine ends_sized fun k hk => setRegOperand_sized d ?_
    cases k with
    | src => exact .inr (h.2 .src rfl)
    | dest => exact .inl rfl
    | src2 => exact nomatch hk
  have hdest : Ends (fun _ => Both I (Sized srcDest)) I (setRegOperand d .dest rEAX m) E :=
    ((Keeps.ends m h.1).and hsized).mono (fun _ _ h => h) fun _ h => h.1
  refine hdest.bind fun _ m h => ?_
  have hrest : Keeps (Both I (Sized srcDest)) (doXchg d >>= fun _ => (pure 1 : Cmd (Machine P) Word)) E :=
    inferInstance
  exact (hrest.ends m h).mono (fun _ _ h => h.1) fun _ h => h.1

/-- `lgdt` and `lidt` read 3 bytes of the base at operand size 16. -/
instance (set : DescReg → Machine P → Machine P) [∀ r, Kept I (set r)] [h : LenOk E 3] :
    Keeps I (loadDescReg d set eip) E := by
  have : LenOk E (if d = .w then 3 else 4) := by
    split <;> infer_instance
  unfold loadDescReg
  infer_instance

instance (set : DescReg → Machine P → Machine P) [∀ r, Kept I (set r)] :
    Keeps I (loadDescReg .l set eip) E := by
  unfold loadDescReg
  rw [if_neg (by decide)]
  infer_instance

end Helpers

/-! ### Segment registers -/

/-- The segment registers may change. -/
class SregKept (I : Machine P → Prop) : Prop where
  setSreg : ∀ (i : Fin 6) (s : SegReg), Kept I (Machine.setSreg · i s)
  setSelector : ∀ (i : Fin 6) (v : BitVec 16), Kept I (Machine.setSelector · i v)

attribute [instance] SregKept.setSreg SregKept.setSelector

section Segments

variable [Bus P] [DecodeKept I] [RegsKept I] [SregKept I] (eip : Word)

section Reads

variable [hb : ReadKept I E]

instance (i : Fin 6) (v : BitVec 16) : Keeps I (loadSreg (P := P) i v) E := by
  unfold loadSreg
  dsimp only
  infer_instance

instance : Keeps I (movRm2s (P := P) eip) E := by
  have := hb.assertion
  unfold movRm2s
  infer_instance

instance (d : Width) [EipKept I] : Keeps I (jmpL (P := P) d eip) E := by
  unfold jmpL
  dsimp only
  infer_instance

instance [EipKept I] [∀ v, Kept I (Machine.setEflags · v)] : Keeps I (iret (P := P) eip) E := by
  unfold iret
  infer_instance

end Reads

variable [hb : BusKept I E]

instance (no : Byte) [EipKept I] : Keeps I (raiseIntr (P := P) no) E := by
  unfold raiseIntr
  dsimp only
  infer_instance

instance [EipKept I] : Keeps I (intI (P := P) eip) E := by unfold intI; infer_instance

instance [∀ b, Kept I (Machine.setFlag · .IF b)] : Keeps I (cli (P := P) eip) E := by
  unfold cli
  infer_instance

instance [∀ b, Kept I (Machine.setFlag · .IF b)] : Keeps I (sti (P := P) eip) E := by
  unfold sti
  infer_instance

end Segments

/-! ### The tables -/

section Tables

/-- Every entry of a table keeps the invariant. -/
class TableKeeps (I : Machine P → Prop) (E : Failure → Prop) (table : List (Helper P)) : Prop where
  keeps : ∀ h ∈ table, ∀ eip, Keeps I (h eip) E

instance : TableKeeps I E [] := ⟨fun _ h => nomatch h⟩

instance {h : Helper P} {table : List (Helper P)} [hh : ∀ eip, Keeps I (h eip) E]
    [ht : TableKeeps I E table] : TableKeeps I E (h :: table) :=
  ⟨List.forall_mem_cons.mpr ⟨hh, ht.keeps⟩⟩

variable [Bus P] [hb : BusKept I E]

instance {table : List (Helper P)} [h : TableKeeps I E table] (k : ℕ) (eip : Word) :
    Keeps I (entry table k eip) E := by
  have := hb.assertion
  rw [entry, List.getD_eq_getElem?_getD]
  by_cases hk : k < table.length
  · rw [List.getElem?_eq_getElem hk]
    exact h.keeps _ (List.getElem_mem hk) eip
  · rw [List.getElem?_eq_none (Nat.le_of_not_lt hk)]
    exact inferInstanceAs (Keeps I (abort : Cmd (Machine P) Word) E)

instance {table : List (Helper P)} [TableKeeps I E table] (eip : Word) :
    Keeps I (group table eip) E := by
  unfold group
  infer_instance

section Ops

variable (e : Width → Cmd (Machine P) Unit) (d : Width) (eip : Word)

instance [h : Keeps I (idex (decodeR2rm d) (e d) eip) E] : Keeps I (opR2rm e d eip) E := h
instance [h : Keeps I (idex (decodeRm2r d) (e d) eip) E] : Keeps I (opRm2r e d eip) E := h
instance [h : Keeps I (idex (decodeI2rm d) (e d) eip) E] : Keeps I (opI2rm e d eip) E := h
instance [h : Keeps I (idex (decodeSi2rm d) (e d) eip) E] : Keeps I (opSi2rm e d eip) E := h
instance [h : Keeps I (idex (decodeI2a d) (e d) eip) E] : Keeps I (opI2a e d eip) E := h
instance [h : Keeps I (idex (decodeI2r d) (e d) eip) E] : Keeps I (opI2r e d eip) E := h
instance [h : Keeps I (idex (decodeRm d) (e d) eip) E] : Keeps I (opRm e d eip) E := h
instance [h : Keeps I (idex (decodeR d) (e d) eip) E] : Keeps I (opR e d eip) E := h
instance [h : Keeps I (idex (decodeI d) (e d) eip) E] : Keeps I (opI e d eip) E := h
instance [h : Keeps I (idex decodeN (e d) eip) E] : Keeps I (opN e d eip) E := h
instance [h : Keeps I (idex (decodeIRm2r d) (e d) eip) E] : Keeps I (opIRm2r e d eip) E := h
instance [h : Keeps I (idex (decodeSiRm2r d) (e d) eip) E] : Keeps I (opSiRm2r e d eip) E := h
instance [h : Keeps I (idex (decodeRm1 d) (e d) eip) E] : Keeps I (opRm1 e d eip) E := h
instance [h : Keeps I (idex (decodeRmCl d) (e d) eip) E] : Keeps I (opRmCl e d eip) E := h
instance [h : Keeps I (idex (decodeRmImm d) (e d) eip) E] : Keeps I (opRmImm e d eip) E := h

end Ops

variable [DecodeKept I] [DataKept I] [StatusKept I] [EipKept I]

instance : TableKeeps (P := P) I E group1B := by unfold group1B; infer_instance
instance : TableKeeps (P := P) I E group1V := by unfold group1V; infer_instance
instance : TableKeeps (P := P) I E group1SxV := by unfold group1SxV; infer_instance
instance : TableKeeps (P := P) I E group2IB := by unfold group2IB; infer_instance
instance : TableKeeps (P := P) I E group2IV := by unfold group2IV; infer_instance
instance : TableKeeps (P := P) I E group21B := by unfold group21B; infer_instance
instance : TableKeeps (P := P) I E group21V := by unfold group21V; infer_instance
instance : TableKeeps (P := P) I E group2ClB := by unfold group2ClB; infer_instance
instance : TableKeeps (P := P) I E group2ClV := by unfold group2ClV; infer_instance
instance : TableKeeps (P := P) I E group3B := by unfold group3B; infer_instance
instance : TableKeeps (P := P) I E group3V := by unfold group3V; infer_instance
instance : TableKeeps (P := P) I E group4 := by unfold group4; infer_instance
instance : TableKeeps (P := P) I E group5 := by unfold group5; infer_instance
instance : TableKeeps (P := P) I E group6 := by unfold group6; infer_instance

/-- The table with these entries taken out. -/
def without (table : List (Helper P)) (ks : List ℕ) : List (Helper P) :=
  ks.foldl (fun t k => t.set k inv) table

omit [Bus P] hb [DecodeKept I] [DataKept I] [StatusKept I] [EipKept I] in
theorem entry_without {ks : List ℕ} {k : ℕ} (hk : k ∉ ks) (table : List (Helper P)) :
    entry (without table ks) k = entry table k := by
  induction ks generalizing table with
  | nil => rfl
  | cons j ks ih =>
    have hne : k ≠ j := fun h => hk (h ▸ List.mem_cons_self)
    have hset : entry (table.set j inv) k = entry table k := by
      simp only [entry, List.getD_eq_getElem?_getD, List.getElem?_set_ne hne.symm]
    exact (ih (fun h => hk (List.mem_cons_of_mem j h)) _).trans hset

set_option maxRecDepth 20000 in
instance : TableKeeps (P := P) I E (without opcodeTable2 [1]) := by
  unfold without opcodeTable2
  simp only [List.foldl_cons, List.foldl_nil, List.set_cons_succ, List.set_cons_zero]
  infer_instance

instance [LenOk E 3] : TableKeeps (P := P) I E group7 := by
  unfold group7 lgdt lidt
  infer_instance

/-- The two-byte opcodes, without `lgdt` and `lidt`. -/
theorem keeps_opcodeTable2 {k : ℕ} (hk : k ≠ 1) (eip : Word) :
    Keeps I (entry (opcodeTable2 (P := P)) k eip) E := by
  have hk' : k ∉ [1] := by simpa using hk
  rw [← entry_without hk']
  infer_instance

instance [LenOk E 3] (eip : Word) : Keeps I (twoByteEsc (P := P) eip) E := by
  have hentry : ∀ k eip, Keeps I (entry (opcodeTable2 (P := P)) k eip) E := by
    intro k eip
    by_cases hk : k = 1
    · subst hk
      exact inferInstanceAs (Keeps I (group group7 eip) E)
    · exact keeps_opcodeTable2 hk eip
  unfold twoByteEsc
  infer_instance

/-- The opcodes of the instructions that change a segment register or `IF`, or
execute another instruction, and of the two-byte opcodes. -/
def special : List ℕ := [0x0f, 0x66, 0x8e, 0xcd, 0xcf, 0xea, 0xf2, 0xf3, 0xfa, 0xfb]

set_option maxRecDepth 20000 in
instance (exec : Helper P) (fuel : ℕ) :
    TableKeeps I E (without (opcodeTable exec fuel) (special ++ [0xfc, 0xfd])) := by
  unfold without opcodeTable special
  simp only [List.cons_append, List.nil_append, List.foldl_cons, List.foldl_nil, List.set_cons_succ,
    List.set_cons_zero]
  infer_instance

/-- The others, without `cld` and `std`. -/
theorem keeps_opcodeTable_status {k : ℕ} (hk : k ∉ special ++ [0xfc, 0xfd]) (exec : Helper P)
    (fuel : ℕ) (eip : Word) : Keeps I (entry (opcodeTable exec fuel) k eip) E := by
  rw [← entry_without hk]
  infer_instance

theorem keeps_opcodeTable [FlagsKept I] {k : ℕ} (hk : k ∉ special) (exec : Helper P) (fuel : ℕ)
    (eip : Word) : Keeps I (entry (opcodeTable exec fuel) k eip) E := by
  by_cases hd : k ∈ [0xfc, 0xfd]
  · simp only [List.mem_cons, List.not_mem_nil, or_false] at hd
    rcases hd with rfl | rfl
    · exact inferInstanceAs (Keeps I (cld eip) E)
    · exact inferInstanceAs (Keeps I (std eip) E)
  · refine keeps_opcodeTable_status (fun h => ?_) exec fuel eip
    rcases List.mem_append.mp h with h | h
    · exact hk h
    · exact hd h

end Tables

end Keep

end Nemu
