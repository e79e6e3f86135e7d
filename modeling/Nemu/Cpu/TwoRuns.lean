/-
# Two machines with different operand records

Two machines run beside each other that differ in the operand records only. An
instruction that does not look at the records runs alike on both; so does one
that looks at what its own decoder filled in. The relation between the two
families of records is a parameter: nothing is known of them before an
instruction is decoded, and `Filled` is what a decoder leaves.

Key definitions: `Beside`, `Settled`, `Filled`, `Decoding`.
Key theorems: `decodeRmInternal_leads`, the instances of `Syncs`.
-/
import Nemu.Cpu.Jumps

namespace Nemu

open Bytes Cmd Instr

set_option synthInstance.maxSize 10000

/-- The same machine with these operand records. -/
def Machine.withOperands {P : Type} (m : Machine P) (f : Slot → Operand) : Machine P :=
  { m with ops := { m.ops with operand := f } }

/-- The two machines differ in the operand records only, which `Φ` relates. -/
inductive Beside {P : Type} (Φ : (Slot → Operand) → (Slot → Operand) → Prop) :
    Machine P → Machine P → Prop
  | intro (m : Machine P) (f : Slot → Operand) (h : Φ m.ops.operand f) : Beside Φ m (m.withOperands f)

/-- Nothing is known of the records. -/
abbrev Unknown (_ _ : Slot → Operand) : Prop := True

/-- The two machines agree up to the operand records. -/
abbrev UpToOperands {P : Type} : Machine P → Machine P → Prop := Beside Unknown

/-- Two records agree in what an instruction may use of them. The size and the
segment are those of an operand in memory. -/
structure Settled (o o' : Operand) : Prop where
  type : o.type = o'.type
  loc : o.loc = o'.loc
  val : o.val = o'.val
  mem : o.type = .mem → o.size = o'.size ∧ o.sreg = o'.sreg

theorem Settled.refl (o : Operand) : Settled o o := ⟨rfl, rfl, rfl, fun _ => ⟨rfl, rfl⟩⟩

/-- The records of an operand that may be in memory, of this size. -/
def Twin (n : ℕ) (o o' : Operand) : Prop := o = o' ∧ o.size = n

/-- The records of an immediate that was extended from this width. -/
def Extended (d : Width) (o o' : Operand) : Prop := Settled o o' ∧ ∃ v, o.val = d.sext v

section TwoRuns

variable {P : Type} {Φ Ψ : (Slot → Operand) → (Slot → Operand) → Prop}

theorem Beside.mono {s t : Machine P} (h : Beside Φ s t) (hΦ : ∀ g g', Φ g g' → Ψ g g') : Beside Ψ s t := by
  cases h with
  | intro f h => exact .intro s f (hΦ _ _ h)

theorem Beside.forget {s t : Machine P} (h : Beside Φ s t) : UpToOperands s t := h.mono fun _ _ _ => trivial

/-! ### What does not look at the records -/

/-- A change of something else. -/
theorem synced_aside {g : Machine P → Machine P}
    (hg : ∀ m f, g (m.withOperands f) = (g m).withOperands f)
    (hops : ∀ m, (g m).ops.operand = m.ops.operand) : Synced (Beside Φ) g := by
  refine ⟨fun s t hst => ?_⟩
  obtain ⟨f, h⟩ := hst
  rw [hg]
  exact .intro _ f (by rwa [hops])

section Blind

instance (d : Width) (i : Fin 8) : Seen (Beside Φ) (fun m : Machine P => m.reg d i) := ⟨by rintro _ _ ⟨⟩; rfl⟩
instance (f : Flag) : Seen (Beside Φ) (fun m : Machine P => m.flag f) := ⟨by rintro _ _ ⟨⟩; rfl⟩
instance : Seen (Beside Φ) (fun m : Machine P => m.eip) := ⟨by rintro _ _ ⟨⟩; rfl⟩
instance : Seen (Beside Φ) (fun m : Machine P => m.cpu.eflags) := ⟨by rintro _ _ ⟨⟩; rfl⟩
instance : Seen (Beside Φ) (fun m : Machine P => m.cpu.cr0) := ⟨by rintro _ _ ⟨⟩; rfl⟩
instance : Seen (Beside Φ) (fun m : Machine P => (m.cpu.cr0, m.cpu.cr3)) := ⟨by rintro _ _ ⟨⟩; rfl⟩
instance : Seen (Beside Φ) (fun m : Machine P => m.cpu.gdtr.base) := ⟨by rintro _ _ ⟨⟩; rfl⟩
instance : Seen (Beside Φ) (fun m : Machine P => m.cpu.idtr.base) := ⟨by rintro _ _ ⟨⟩; rfl⟩
instance (i : Fin 6) : Seen (Beside Φ) (fun m : Machine P => (m.cpu.sreg i).selector) :=
  ⟨by rintro _ _ ⟨⟩; rfl⟩
instance (i : Fin 6) : Seen (Beside Φ) (fun m : Machine P => (m.cpu.sreg i).cache.base) :=
  ⟨by rintro _ _ ⟨⟩; rfl⟩
instance (addr : Word) (i : Fin 6) : Seen (Beside Φ) (fun m : Machine P => m.cpu.linear addr i) :=
  ⟨by rintro _ _ ⟨⟩; rfl⟩
instance (i : Option (Fin 8)) : Seen (Beside Φ) (fun m : Machine P => m.cpu.regOr0 i) :=
  ⟨by rintro _ _ ⟨⟩; rfl⟩
instance : Seen (Beside Φ) (fun m : Machine P => m.ops.opcode) := ⟨by rintro _ _ ⟨⟩; rfl⟩
instance : Seen (Beside Φ) (fun m : Machine P => m.ops.isOperandSize16) := ⟨by rintro _ _ ⟨⟩; rfl⟩
instance : Seen (Beside Φ) (checkCcE (P := P)) := ⟨by rintro _ _ ⟨⟩; rfl⟩
instance : Seen (Beside Φ) (checkCcLe (P := P)) := ⟨by rintro _ _ ⟨⟩; rfl⟩
instance (c : Cc) : Seen (Beside Φ) (fun m : Machine P => c.test m) :=
  ⟨by rintro _ _ ⟨⟩; cases c <;> rfl⟩

instance (d : Width) (i : Fin 8) (v : Word) : Synced (Beside Φ) (Machine.setReg (P := P) · d i v) :=
  synced_aside (fun _ _ => rfl) fun _ => rfl
instance (f : Flag) (b : Bool) : Synced (Beside Φ) (Machine.setFlag (P := P) · f b) :=
  synced_aside (fun _ _ => rfl) fun _ => rfl
instance (v : Word) : Synced (Beside Φ) (Machine.setEflags (P := P) · v) :=
  synced_aside (fun _ _ => rfl) fun _ => rfl
instance (v : Word) : Synced (Beside Φ) (Machine.setEip (P := P) · v) :=
  synced_aside (fun _ _ => rfl) fun _ => rfl
instance (d : DescReg) : Synced (Beside Φ) (Machine.setGdtr (P := P) · d) :=
  synced_aside (fun _ _ => rfl) fun _ => rfl
instance (d : DescReg) : Synced (Beside Φ) (Machine.setIdtr (P := P) · d) :=
  synced_aside (fun _ _ => rfl) fun _ => rfl
instance (v : Word) : Synced (Beside Φ) (Machine.setCr0 (P := P) · v) :=
  synced_aside (fun _ _ => rfl) fun _ => rfl
instance (v : Word) : Synced (Beside Φ) (Machine.setCr3 (P := P) · v) :=
  synced_aside (fun _ _ => rfl) fun _ => rfl
instance (i : Fin 6) (r : SegReg) : Synced (Beside Φ) (Machine.setSreg (P := P) · i r) :=
  synced_aside (fun _ _ => rfl) fun _ => rfl
instance (i : Fin 6) (v : BitVec 16) : Synced (Beside Φ) (Machine.setSelector (P := P) · i v) :=
  synced_aside (fun _ _ => rfl) fun _ => rfl
instance (v : Word) : Synced (Beside Φ) (Machine.setOpcode (P := P) · v) :=
  synced_aside (fun _ _ => rfl) fun _ => rfl
instance (b : Bool) : Synced (Beside Φ) (Machine.setOperandSize16 (P := P) · b) :=
  synced_aside (fun _ _ => rfl) fun _ => rfl
instance (n : NemuState) : Synced (Beside Φ) (Machine.setState (P := P) · n) :=
  synced_aside (fun _ _ => rfl) fun _ => rfl
instance (n : Fin 80) : Synced (Beside Φ) (Machine.setText (P := P) · n) :=
  synced_aside (fun _ _ => rfl) fun _ => rfl
instance : Seen (Beside Φ) (fun m : Machine P => m.assembly.length.val) := ⟨by rintro _ _ ⟨⟩; rfl⟩

instance {α : Type} (a : P → Option (α × P)) : Syncs (Beside Φ) (bus a) := by
  refine ⟨fun s t hst => ?_⟩
  obtain ⟨f, h⟩ := hst
  have hbus : (s.withOperands f).bus = s.bus := rfl
  simp only [bus, access, hbus]
  cases a s.bus with
  | none => rfl
  | some r => exact ⟨rfl, .intro (s.setBus r.2) f h⟩

instance (d : Width) (r : Word) : Syncs (Beside Φ) (setResultFlags (P := P) d r) := by
  unfold setResultFlags
  infer_instance
instance (d : Width) (x y r : Word) : Syncs (Beside Φ) (setAddFlags (P := P) d x y r) := by
  unfold setAddFlags
  infer_instance
instance (d : Width) (c : Bool) (x y r : Word) : Syncs (Beside Φ) (setSubFlags (P := P) d c x y r) := by
  unfold setSubFlags
  infer_instance
instance (d : Width) (r : Word) : Syncs (Beside Φ) (setLogicFlags (P := P) d r) := by
  unfold setLogicFlags
  infer_instance
instance (d : Width) (r : ℤ) : Syncs (Beside Φ) (setDouble (P := P) d r) := by
  unfold setDouble
  infer_instance
instance (d : Width) (b q r : ℤ) : Syncs (Beside Φ) (setQuotient (P := P) d b q r) := by
  unfold setQuotient
  infer_instance
instance (d : Width) (i : Fin 8) : Syncs (Beside Φ) (stepIndex (P := P) d i) := by
  unfold stepIndex
  infer_instance
instance (i : Word) : Syncs (Beside Φ) (checkRegIndex (P := P) i) := by
  unfold checkRegIndex
  infer_instance

end Blind

section Memory

variable [Bus P]

instance : Seen (Beside Φ) (fun m : Machine P => Bus.INTR m.bus) := ⟨by rintro _ _ ⟨⟩; rfl⟩
instance : Synced (Beside Φ) (fun m : Machine P => m.setBus (Bus.initTLB m.bus)) :=
  synced_aside (fun _ _ => rfl) fun _ => rfl

instance (addr : Word) (len : ℕ) : Syncs (Beside Φ) (lnaddrRead (P := P) addr len) := by
  unfold lnaddrRead
  infer_instance
instance (addr : Word) (len : ℕ) (data : Word) : Syncs (Beside Φ) (lnaddrWrite (P := P) addr len data) := by
  unfold lnaddrWrite
  infer_instance
instance (addr : Word) (sreg : ℕ) : Syncs (Beside Φ) (segTranslate (P := P) addr sreg) := by
  unfold segTranslate
  infer_instance
instance (addr : Word) (len sreg : ℕ) : Syncs (Beside Φ) (swaddrRead (P := P) addr len sreg) := by
  unfold swaddrRead
  infer_instance
instance (addr : Word) (len : ℕ) (data : Word) (sreg : ℕ) :
    Syncs (Beside Φ) (swaddrWrite (P := P) addr len data sreg) := by
  unfold swaddrWrite
  infer_instance
instance (addr : Word) (len : ℕ) : Syncs (Beside Φ) (instrFetch (P := P) addr len) := by
  unfold instrFetch
  infer_instance
instance (i : Fin 6) (v : BitVec 16) : Syncs (Beside Φ) (loadSreg (P := P) i v) := by
  unfold loadSreg
  dsimp only
  infer_instance
instance (no : Byte) : Syncs (Beside Φ) (Nemu.raiseIntr (P := P) no) := by
  unfold Nemu.raiseIntr
  dsimp only
  infer_instance
instance (d : Width) (v : Word) : Syncs (Beside Φ) (pushReg (P := P) d v) := by
  unfold pushReg
  infer_instance
instance (d : Width) (i : Fin 8) : Syncs (Beside Φ) (popReg (P := P) d i) := by
  unfold popReg
  infer_instance

end Memory

/-! ### What a decoder leaves -/

/-- The families after the record of one slot is changed. -/
def Changed (Φ : (Slot → Operand) → (Slot → Operand) → Prop) (k : Slot) (u : Operand → Operand)
    (g g' : Slot → Operand) : Prop :=
  ∃ h h', Φ h h' ∧ g = Function.update h k (u (h k)) ∧ g' = Function.update h' k (u (h' k))

/-- The families after the record of one slot is filled in: `B` relates the two. -/
def Filled (Φ : (Slot → Operand) → (Slot → Operand) → Prop) (k : Slot) (B : Operand → Operand → Prop)
    (g g' : Slot → Operand) : Prop :=
  B (g k) (g' k) ∧ ∃ h h', Φ h h' ∧ ∀ j, j ≠ k → g j = h j ∧ g' j = h' j

section Changes

variable {k : Slot} {u v : Operand → Operand} {R : Machine P → Machine P → Prop} {α : Type}
  {c : Unit → Cmd (Machine P) α}

theorem leads_change {g : Machine P → Machine P} (hg : ∀ m, g m = m.setOperand k (u (m.operand k)))
    (hc : Leads (Beside (Changed Φ k u)) R (c ())) : Leads (Beside Φ) R (write g >>= c) := by
  refine .bind_write (fun s t hst => ?_) hc
  obtain ⟨f, h⟩ := hst
  rw [hg, hg]
  exact .intro (s.setOperand k (u (s.operand k))) (Function.update f k (u (f k)))
    ⟨s.ops.operand, f, h, rfl, rfl⟩

theorem leads_setType {t : OpType} (hc : Leads (Beside (Changed Φ k ({ · with type := t }))) R (c ())) :
    Leads (Beside Φ) R (write (Machine.setType · k t) >>= c) :=
  leads_change (fun _ => rfl) hc

theorem leads_setSize {n : ℕ} (hc : Leads (Beside (Changed Φ k ({ · with size := n }))) R (c ())) :
    Leads (Beside Φ) R (write (Machine.setSize · k n) >>= c) :=
  leads_change (fun _ => rfl) hc

theorem leads_setLoc {w : Word} (hc : Leads (Beside (Changed Φ k ({ · with loc := w }))) R (c ())) :
    Leads (Beside Φ) R (write (Machine.setLoc · k w) >>= c) :=
  leads_change (fun _ => rfl) hc

theorem leads_setOpSreg {n : ℕ} (hc : Leads (Beside (Changed Φ k ({ · with sreg := n }))) R (c ())) :
    Leads (Beside Φ) R (write (Machine.setOpSreg · k n) >>= c) :=
  leads_change (fun _ => rfl) hc

theorem leads_setVal {w : Word} (hc : Leads (Beside (Changed Φ k ({ · with val := w }))) R (c ())) :
    Leads (Beside Φ) R (write (Machine.setVal · k w) >>= c) :=
  leads_change (fun _ => rfl) hc

end Changes

/-- The first change is covered by the second. -/
theorem Changed.comp {k : Slot} {u v : Operand → Operand} {g g' : Slot → Operand}
    (h : Changed (Changed Φ k u) k v g g') : Changed Φ k (v ∘ u) g g' := by
  obtain ⟨_, _, ⟨f, f', hΦ, rfl, rfl⟩, rfl, rfl⟩ := h
  exact ⟨f, f', hΦ, by simp, by simp⟩

/-- Changes of different slots come in any order. -/
theorem Changed.swap {j k : Slot} {u v : Operand → Operand} {g g' : Slot → Operand} (hne : j ≠ k)
    (h : Changed (Changed Φ j u) k v g g') : Changed (Changed Φ k v) j u g g' := by
  obtain ⟨_, _, ⟨f, f', hΦ, rfl, rfl⟩, rfl, rfl⟩ := h
  refine ⟨_, _, ⟨f, f', hΦ, rfl, rfl⟩, ?_, ?_⟩
  · rw [Function.update_of_ne hne.symm, Function.update_of_ne hne, Function.update_comm hne]
  · rw [Function.update_of_ne hne.symm, Function.update_of_ne hne, Function.update_comm hne]

theorem Changed.mono {k : Slot} {u : Operand → Operand} {g g' : Slot → Operand}
    (hΦ : ∀ h h', Φ h h' → Ψ h h') (h : Changed Φ k u g g') : Changed Ψ k u g g' := by
  obtain ⟨f, f', hf, hg⟩ := h
  exact ⟨f, f', hΦ f f' hf, hg⟩

theorem Changed.filled {k : Slot} {u : Operand → Operand} {B : Operand → Operand → Prop}
    {g g' : Slot → Operand} (hB : ∀ o o', B (u o) (u o')) (h : Changed Φ k u g g') :
    Filled Φ k B g g' := by
  obtain ⟨f, f', hΦ, rfl, rfl⟩ := h
  refine ⟨?_, f, f', hΦ, fun j hj => ⟨Function.update_of_ne hj _ _, Function.update_of_ne hj _ _⟩⟩
  rw [Function.update_self, Function.update_self]
  exact hB _ _

theorem Filled.mono {k : Slot} {B : Operand → Operand → Prop} {g g' : Slot → Operand}
    (hΦ : ∀ h h', Φ h h' → Ψ h h') (h : Filled Φ k B g g') : Filled Ψ k B g g' := by
  obtain ⟨hB, f, f', hf, hg⟩ := h
  exact ⟨hB, f, f', hΦ f f' hf, hg⟩

section Decoders

variable {k k' : Slot} {B : Operand → Operand → Prop} (d : Width) (eip : Word)

theorem setRegOperand_leads (i : Fin 8) :
    Leads (Beside Φ) (Beside (Filled Φ k Settled)) (setRegOperand (P := P) d k i) := by
  unfold setRegOperand
  refine leads_setType (leads_setLoc (.bind_syncs fun v => ?_))
  rw [← bind_pure_cmd (write _)]
  refine leads_setVal (.pure _ fun s t h => h.mono fun g g' hg => ?_)
  exact hg.comp.comp.filled fun o o' => ⟨rfl, rfl, rfl, fun h => OpType.noConfusion h⟩

variable [Bus P]

theorem decodeI_leads : Leads (Beside Φ) (Beside (Filled Φ .src Settled)) (decodeI (P := P) d eip) := by
  unfold decodeI
  refine leads_setType (.bind_syncs fun v => leads_setLoc (leads_setVal (.pure _ fun s t h => ?_)))
  exact h.mono fun g g' hg => hg.comp.comp.filled fun o o' => ⟨rfl, rfl, rfl, fun h => OpType.noConfusion h⟩

theorem decodeSi_leads : Leads (Beside Φ) (Beside (Filled Φ .src (Extended d))) (decodeSi (P := P) d eip) := by
  unfold decodeSi
  refine leads_setType (.bind_syncs fun v => leads_setLoc (leads_setVal (.pure _ fun s t h => ?_)))
  refine h.mono fun g g' hg => hg.comp.comp.filled fun o o' => ⟨?_, v, rfl⟩
  exact ⟨rfl, rfl, rfl, fun h => OpType.noConfusion h⟩

/-- The address is in the record, with its type. -/
theorem loadAddr_leads (m : Word) : Leads (Beside Φ)
    (Beside fun g g' => ∃ w, Changed Φ k ({ · with type := .mem, loc := w }) g g')
    (loadAddr (P := P) eip m k) := by
  unfold loadAddr
  by_cases hm : bits67 m = 3
  · rw [if_pos hm]
    exact fun s t _ => rfl
  · rw [if_neg hm]
    refine .bind_syncs fun sib => .bind_syncs fun disp => .bind_syncs fun base => .bind_syncs fun index => ?_
    refine leads_setType (leads_setLoc (.pure _ fun s t h => h.mono fun g g' hg => ?_))
    exact ⟨_, hg.comp⟩

/-- One operand is in a register or in memory, with all fields filled, the other
in a register. -/
theorem decodeRmInternal_leads {rm reg : Slot} (hne : rm ≠ reg) :
    Leads (Beside Φ) (Beside (Filled (Filled Φ rm (Twin d.bytes)) reg Settled))
      (decodeRmInternal (P := P) d eip rm reg) := by
  -- the record of the register is filled before and after the other one
  have hreg {l v : Word} {u : Operand → Operand} {n : ℕ} {g g' : Slot → Operand}
      (h : Changed (Changed (Changed (Changed (Changed Φ rm ({ · with size := n }))
        reg ({ · with type := .reg })) reg ({ · with loc := l })) rm u) reg ({ · with val := v }) g g')
      (hu : ∀ o o' : Operand, Twin n (u { o with size := n }) (u { o' with size := n })) :
      Filled (Filled Φ rm (Twin n)) reg Settled g g' := by
    have h₁ := (h.swap hne).mono fun _ _ h => h.comp.comp
    have h₂ := (h₁.swap hne.symm).mono fun _ _ h => h.comp
    have hfilled := h₂.filled (B := Settled) fun o o' => ⟨rfl, rfl, rfl, fun h => OpType.noConfusion h⟩
    exact hfilled.mono fun _ _ h => h.filled hu
  unfold decodeRmInternal readModRM
  dsimp only
  simp only [bind_assoc_cmd]
  refine leads_setSize (.bind_syncs fun m => leads_setType (leads_setLoc (leads_setOpSreg ?_)))
  by_cases hm : bits67 m = 3
  · simp only [if_pos hm, bind_assoc_cmd]
    refine leads_setType (leads_setLoc (.bind_syncs fun v => leads_setVal ?_))
    rw [pure_bind_cmd]
    refine .bind_syncs fun w => leads_setVal (.pure _ fun s t h => h.mono fun g g' hg => ?_)
    exact hreg (hg.mono fun _ _ h => h.comp.comp.comp) fun _ _ => ⟨rfl, rfl⟩
  · simp only [if_neg hm, bind_assoc_cmd]
    refine .bind (loadAddr_leads eip m) fun r => .bind_syncs fun v => leads_setVal ?_
    rw [pure_bind_cmd]
    refine .bind_syncs fun w => leads_setVal (.pure _ fun s t h => h.mono fun g g' hg => ?_)
    obtain ⟨f, f', ⟨h, h', ⟨addr, hΦ⟩, hh, hh'⟩, hf, hf'⟩ := hg
    have haddr : Changed _ rm ({ · with val := v }) f f' := ⟨h, h', hΦ, hh, hh'⟩
    exact hreg ⟨f, f', haddr.comp.comp, hf, hf'⟩ fun _ _ => ⟨rfl, rfl⟩

end Decoders

/-! ### What an instruction may use -/

/-- A slot whose records agree, as far as they are used. -/
class Knows (Φ : (Slot → Operand) → (Slot → Operand) → Prop) (k : Slot) : Prop where
  settled : ∀ g g', Φ g g' → Settled (g k) (g' k)

/-- A slot with the same record. -/
class Whole (Φ : (Slot → Operand) → (Slot → Operand) → Prop) (k : Slot) : Prop where
  eq : ∀ g g', Φ g g' → g k = g' k

instance : Fact (Slot.src ≠ .dest) := ⟨by decide⟩
instance : Fact (Slot.src ≠ .src2) := ⟨by decide⟩
instance : Fact (Slot.dest ≠ .src) := ⟨by decide⟩
instance : Fact (Slot.dest ≠ .src2) := ⟨by decide⟩
instance : Fact (Slot.src2 ≠ .src) := ⟨by decide⟩
instance : Fact (Slot.src2 ≠ .dest) := ⟨by decide⟩

section Knows

variable {j k : Slot} {B : Operand → Operand → Prop}

instance [h : Whole Φ k] : Knows Φ k := ⟨fun g g' hg => by rw [h.eq g g' hg]; exact .refl _⟩
instance : Knows (Filled Φ k Settled) k := ⟨fun _ _ h => h.1⟩
instance {d : Width} : Knows (Filled Φ k (Extended d)) k := ⟨fun _ _ h => h.1.1⟩
instance {n : ℕ} : Whole (Filled Φ k (Twin n)) k := ⟨fun _ _ h => h.1.1⟩

instance [hne : Fact (k ≠ j)] [h : Knows Φ k] : Knows (Filled Φ j B) k := by
  refine ⟨fun g g' hg => ?_⟩
  obtain ⟨-, f, f', hΦ, hf⟩ := hg
  rw [(hf k hne.out).1, (hf k hne.out).2]
  exact h.settled f f' hΦ

instance [hne : Fact (k ≠ j)] [h : Whole Φ k] : Whole (Filled Φ j B) k := by
  refine ⟨fun g g' hg => ?_⟩
  obtain ⟨-, f, f', hΦ, hf⟩ := hg
  rw [(hf k hne.out).1, (hf k hne.out).2]
  exact h.eq f f' hΦ

instance {u : Operand → Operand} [hne : Fact (k ≠ j)] [h : Knows Φ k] : Knows (Changed Φ j u) k := by
  refine ⟨fun g g' hg => ?_⟩
  obtain ⟨f, f', hΦ, rfl, rfl⟩ := hg
  rw [Function.update_of_ne hne.out, Function.update_of_ne hne.out]
  exact h.settled f f' hΦ

instance {v : Word} [h : Knows Φ k] : Knows (Changed Φ k ({ · with val := v })) k := by
  refine ⟨fun g g' hg => ?_⟩
  obtain ⟨f, f', hΦ, rfl, rfl⟩ := hg
  have hk := h.settled f f' hΦ
  rw [Function.update_self, Function.update_self]
  exact ⟨hk.type, hk.loc, rfl, hk.mem⟩

instance [h : Knows Φ k] : Seen (Beside Φ) (fun m : Machine P => m.type k) :=
  ⟨by rintro m _ ⟨f, hf⟩; exact (h.settled _ _ hf).type⟩
instance [h : Knows Φ k] : Seen (Beside Φ) (fun m : Machine P => m.loc k) :=
  ⟨by rintro m _ ⟨f, hf⟩; exact (h.settled _ _ hf).loc⟩
instance [h : Knows Φ k] : Seen (Beside Φ) (fun m : Machine P => m.val k) :=
  ⟨by rintro m _ ⟨f, hf⟩; exact (h.settled _ _ hf).val⟩
instance [h : Whole Φ k] : Seen (Beside Φ) (fun m : Machine P => (m.operand k).sreg) :=
  ⟨by rintro m _ ⟨f, hf⟩; exact congrArg Operand.sreg (h.eq _ _ hf)⟩

end Knows

/-- The command ends alike for records that `Φ` relates. -/
class Forgets {α : Type} (Φ : (Slot → Operand) → (Slot → Operand) → Prop) (c : Cmd (Machine P) α) :
    Prop where
  leads : Leads (Beside Φ) UpToOperands c

instance {α : Type} {c : Cmd (Machine P) α} [h : Syncs (Beside Φ) c] : Forgets Φ c :=
  ⟨Syncs.leads (h := h) fun _ _ => Beside.forget⟩

section Execute

variable [Bus P] (d : Width) {k : Slot}

instance (v : Word) [h : Knows Φ k] : Syncs (Beside Φ) (writeOperand (P := P) d k v) := by
  refine ⟨fun s t hst => ?_⟩
  have htype := Seen.seen (f := fun m : Machine P => m.type k) s t hst
  have hloc := Seen.seen (f := fun m : Machine P => m.loc k) s t hst
  unfold writeOperand
  rw [read_bind_run, read_bind_run, read_bind_run, read_bind_run, ← htype, ← hloc]
  by_cases hr : s.type k = .reg
  · rw [if_pos hr]
    exact Syncs.alike s t hst
  · rw [if_neg hr]
    by_cases hm : s.type k = .mem
    · have hmem : (s.operand k).size = (t.operand k).size ∧ (s.operand k).sreg = (t.operand k).sreg := by
        cases hst with
        | intro f hf => exact (h.settled _ _ hf).mem hm
      rw [if_pos hm, read_bind_run, read_bind_run, read_bind_run, read_bind_run, ← hmem.1, ← hmem.2]
      exact Syncs.alike s t hst
    · rw [if_neg hm]
      rfl

section One

variable [Knows Φ .src]

instance : Syncs (Beside Φ) (doMul (P := P) d) := by unfold doMul; infer_instance
instance : Syncs (Beside Φ) (doDiv (P := P) d) := by unfold doDiv; infer_instance
instance : Syncs (Beside Φ) (doIdiv (P := P) d) := by
  unfold doIdiv
  dsimp only
  infer_instance
instance : Syncs (Beside Φ) (doInc (P := P) d) := by unfold doInc; infer_instance
instance : Syncs (Beside Φ) (doDec (P := P) d) := by unfold doDec; infer_instance
instance : Syncs (Beside Φ) (doNeg (P := P) d) := by unfold doNeg; infer_instance
instance : Syncs (Beside Φ) (doNot (P := P) d) := by unfold doNot; infer_instance

instance : Forgets Φ (doPush (P := P) d) := by
  refine ⟨?_⟩
  unfold doPush
  dsimp only
  refine .bind_syncs fun v => leads_setVal (Leads.mono ?_ fun _ _ => Beside.forget)
  exact Syncs.leads fun _ _ h => h

end One

instance [Whole Φ .src] : Syncs (Beside Φ) (doPop (P := P) d) := by unfold doPop; infer_instance

section Two

variable [Knows Φ .src] [Knows Φ .dest]

instance : Syncs (Beside Φ) (doAdd (P := P) d) := by unfold doAdd; infer_instance
instance : Syncs (Beside Φ) (doAdc (P := P) d) := by unfold doAdc; infer_instance
instance : Syncs (Beside Φ) (doSub (P := P) d) := by unfold doSub; infer_instance
instance : Syncs (Beside Φ) (doCmp (P := P) d) := by unfold doCmp; infer_instance
instance (f : Word → Word → Word) : Syncs (Beside Φ) (doLogic (P := P) d f) := by
  unfold doLogic
  infer_instance
instance : Syncs (Beside Φ) (doAnd (P := P) d) := by unfold doAnd; infer_instance
instance : Syncs (Beside Φ) (doOr (P := P) d) := by unfold doOr; infer_instance
instance : Syncs (Beside Φ) (doXor (P := P) d) := by unfold doXor; infer_instance
instance : Syncs (Beside Φ) (doTest (P := P) d) := by unfold doTest; infer_instance
instance (c : Word → Bool) (f : Word → ℕ → Word) : Syncs (Beside Φ) (doShift (P := P) d c f) := by
  unfold doShift
  infer_instance
instance : Syncs (Beside Φ) (doShl (P := P) d) := by unfold doShl; infer_instance
instance : Syncs (Beside Φ) (doShr (P := P) d) := by unfold doShr; infer_instance
instance : Syncs (Beside Φ) (doSar (P := P) d) := by unfold doSar; infer_instance
instance : Syncs (Beside Φ) (doMov (P := P) d) := by unfold doMov; infer_instance
instance : Syncs (Beside Φ) (doXchg (P := P) d) := by unfold doXchg; infer_instance
instance [Knows Φ .src2] : Syncs (Beside Φ) (doImul (P := P) d) := by unfold doImul; infer_instance
instance [Knows Φ .src2] : Syncs (Beside Φ) (doShrd (P := P) d) := by unfold doShrd; infer_instance
instance [Whole Φ .dest] : Syncs (Beside Φ) (doBt (P := P) d) := by unfold doBt; infer_instance

end Two

instance : Syncs (Beside Φ) (doMovs (P := P) d) := by unfold doMovs; infer_instance
instance : Syncs (Beside Φ) (doStos (P := P) d) := by unfold doStos; infer_instance
instance : Syncs (Beside Φ) (doLods (P := P) d) := by unfold doLods; infer_instance

end Execute

/-! ### Instructions -/

/-- What the decoder leaves in the records, whatever was in them. -/
class Decoding [Bus P] (decode : Helper P) (Φ : outParam ((Slot → Operand) → (Slot → Operand) → Prop)) :
    Prop where
  leads : ∀ eip, Leads UpToOperands (Beside Φ) (decode eip)

section Instructions

variable [Bus P] (d : Width) (eip : Word)

instance : Decoding (P := P) decodeN Unknown where
  leads eip := by
    unfold decodeN
    exact leads_setType (.pure _ fun _ _ h => h.forget)

instance : Decoding (P := P) (decodeI d) (Filled Unknown .src Settled) :=
  ⟨fun eip => decodeI_leads d eip⟩

instance : Decoding (P := P) (decodeSi d) (Filled Unknown .src (Extended d)) :=
  ⟨fun eip => decodeSi_leads d eip⟩

instance : Decoding (P := P) (decodeR2rm d) (Filled (Filled Unknown .dest (Twin d.bytes)) .src Settled) :=
  ⟨fun eip => decodeRmInternal_leads d eip (by decide)⟩

instance : Decoding (P := P) (decodeRm2r d) (Filled (Filled Unknown .src (Twin d.bytes)) .dest Settled) :=
  ⟨fun eip => decodeRmInternal_leads d eip (by decide)⟩

instance : Decoding (P := P) (decodeRm d) (Filled (Filled Unknown .src (Twin d.bytes)) .src2 Settled) :=
  ⟨fun eip => decodeRmInternal_leads d eip (by decide)⟩

instance : Decoding (P := P) (decodeI2a d) (Filled (Filled Unknown .dest Settled) .src Settled) where
  leads eip := by
    unfold decodeI2a decodeA
    exact .bind (setRegOperand_leads d rEAX) fun _ => decodeI_leads d eip

instance : Decoding (P := P) (decodeI2r d) (Filled (Filled Unknown .dest Settled) .src Settled) where
  leads eip := by
    unfold decodeI2r decodeRInternal
    rw [bind_assoc_cmd]
    exact .bind_syncs fun opcode => .bind (setRegOperand_leads d _) fun _ => decodeI_leads d eip

instance : Decoding (P := P) (decodeR d) (Filled Unknown .src Settled) where
  leads eip := by
    unfold decodeR decodeRInternal
    rw [bind_assoc_cmd]
    exact .bind_syncs fun opcode => .bind (setRegOperand_leads d _) fun _ => .pure _ fun _ _ h => h

instance : Decoding (P := P) (decodeI2rm d)
    (Filled (Filled (Filled Unknown .dest (Twin d.bytes)) .src2 Settled) .src Settled) where
  leads eip := by
    unfold decodeI2rm
    exact .bind (decodeRmInternal_leads d eip (by decide)) fun len =>
      .bind (decodeI_leads d _) fun _ => .pure _ fun _ _ h => h

instance : Decoding (P := P) (decodeIRm2r d)
    (Filled (Filled (Filled Unknown .src2 (Twin d.bytes)) .dest Settled) .src Settled) where
  leads eip := by
    unfold decodeIRm2r
    exact .bind (decodeRmInternal_leads d eip (by decide)) fun len =>
      .bind (decodeI_leads d _) fun _ => .pure _ fun _ _ h => h

instance : Decoding (P := P) (decodeSi2rm d)
    (Filled (Filled (Filled Unknown .dest (Twin d.bytes)) .src2 Settled) .src (Extended .b)) where
  leads eip := by
    unfold decodeSi2rm
    exact .bind (decodeRmInternal_leads d eip (by decide)) fun len =>
      .bind (decodeSi_leads .b _) fun _ => .pure _ fun _ _ h => h

instance : Decoding (P := P) (decodeSiRm2r d)
    (Filled (Filled (Filled Unknown .src2 (Twin d.bytes)) .dest Settled) .src (Extended .b)) where
  leads eip := by
    unfold decodeSiRm2r
    exact .bind (decodeRmInternal_leads d eip (by decide)) fun len =>
      .bind (decodeSi_leads .b _) fun _ => .pure _ fun _ _ h => h

/-- The shifts fill `op_src` twice. -/
abbrev ShiftFilled (d : Width) : (Slot → Operand) → (Slot → Operand) → Prop :=
  Filled (Filled (Filled Unknown .dest (Twin d.bytes)) .src Settled) .src Settled

instance : Decoding (P := P) (decodeRm1 d) (ShiftFilled d) where
  leads eip := by
    unfold decodeRm1
    refine .bind (decodeRmInternal_leads d eip (by decide)) fun len => ?_
    refine leads_setType (leads_setLoc (leads_setVal (.pure _ fun s t h => h.mono fun g g' hg => ?_)))
    exact hg.comp.comp.filled fun o o' => ⟨rfl, rfl, rfl, fun h => OpType.noConfusion h⟩

instance : Decoding (P := P) (decodeRmCl d) (ShiftFilled d) where
  leads eip := by
    unfold decodeRmCl
    exact .bind (decodeRmInternal_leads d eip (by decide)) fun len =>
      .bind (setRegOperand_leads .b rECX) fun _ => .pure _ fun _ _ h => h

instance : Decoding (P := P) (decodeRmImm d) (ShiftFilled d) where
  leads eip := by
    unfold decodeRmImm
    exact .bind (decodeRmInternal_leads d eip (by decide)) fun len =>
      .bind (decodeI_leads .b _) fun _ => .pure _ fun _ _ h => h

/-- After a decoder, the rest may use what it filled in. -/
theorem leads_decode {β : Type} {decode : Helper P} {eip : Word} {k : Word → Cmd (Machine P) β}
    {R : Machine P → Machine P → Prop} [hd : Decoding decode Φ] [Straight (decode eip)]
    (hk : ∀ a, Leads (Beside Φ) R (k a)) : Leads (Beside Ψ) R (decode eip >>= k) :=
  .bind ((hd.leads eip).mono fun _ _ => Beside.forget) hk

theorem Syncs.after_decode {β : Type} {decode : Helper P} {eip : Word} {k : Word → Cmd (Machine P) β}
    [Decoding decode Φ] [Straight (decode eip)] [hk : ∀ a, Forgets Φ (k a)] :
    Syncs UpToOperands (decode eip >>= k) :=
  ⟨leads_decode fun a => (hk a).leads⟩

instance {c : Cmd (Machine P) Unit} {n : Word} [h : Forgets Φ c] :
    Forgets Φ (c >>= fun _ => (pure n : Cmd (Machine P) Word)) := by
  refine ⟨fun s t hst => ?_⟩
  exact (h.leads s t hst).bind (fun _ _ h => h) fun _ s t h => ⟨rfl, h⟩

instance (decode : Helper P) (execute : Cmd (Machine P) Unit) (eip : Word) [Decoding decode Φ]
    [∀ eip, Straight (decode eip)] [Forgets Φ execute] : Syncs UpToOperands (idex decode execute eip) := by
  unfold idex
  exact Syncs.after_decode

instance (h : Width → Helper P) (eip : Word) [∀ d, Syncs (Beside Φ) (h d eip)] :
    Syncs (Beside Φ) (helperV h eip) := by
  unfold helperV
  infer_instance

section Blind

instance : Syncs (Beside Φ) (movMoffs2a (P := P) d eip) := by unfold movMoffs2a; infer_instance
instance : Syncs (Beside Φ) (movA2moffs (P := P) d eip) := by unfold movA2moffs; infer_instance
instance : Syncs (Beside Φ) (movCr2r (P := P) eip) := by unfold movCr2r; infer_instance
instance : Syncs (Beside Φ) (movR2cr (P := P) eip) := by unfold movR2cr; infer_instance
instance : Syncs (Beside Φ) (cltd (P := P) d eip) := by unfold cltd; infer_instance
instance : Syncs (Beside Φ) (cwtl (P := P) d eip) := by
  unfold cwtl
  dsimp only
  infer_instance
instance : Syncs (Beside Φ) (pusha (P := P) d eip) := by unfold pusha; infer_instance
instance : Syncs (Beside Φ) (popa (P := P) d eip) := by unfold popa; infer_instance
instance : Syncs (Beside Φ) (leave (P := P) eip) := by unfold leave; infer_instance
instance : Syncs (Beside Φ) (jmpL (P := P) d eip) := by
  unfold jmpL
  dsimp only
  infer_instance
instance : Syncs (Beside Φ) (retO (P := P) d eip) := by unfold retO; infer_instance
instance : Syncs (Beside Φ) (retI (P := P) d eip) := by unfold retI; infer_instance
instance : Syncs (Beside Φ) (iret (P := P) eip) := by unfold iret; infer_instance
instance : Syncs (Beside Φ) (inD (P := P) d eip) := by unfold inD; infer_instance
instance : Syncs (Beside Φ) (outD (P := P) d eip) := by unfold outD; infer_instance
instance : Syncs (Beside Φ) (hlt (P := P) eip) := by unfold hlt; infer_instance
instance : Syncs (Beside Φ) (cli (P := P) eip) := by unfold cli; infer_instance
instance : Syncs (Beside Φ) (sti (P := P) eip) := by unfold sti; infer_instance
instance : Syncs (Beside Φ) (cld (P := P) eip) := by unfold cld; infer_instance
instance : Syncs (Beside Φ) (std (P := P) eip) := by unfold std; infer_instance
instance : Syncs (Beside Φ) (nop (P := P) eip) := by unfold nop; infer_instance
instance : Syncs (Beside Φ) (int3 (P := P) eip) := by unfold int3; infer_instance
instance : Syncs (Beside Φ) (nemuTrap (P := P) eip) := by unfold nemuTrap; infer_instance
instance : Syncs (Beside Φ) (inv (P := P) eip) := by unfold inv; infer_instance
instance : Syncs (Beside Φ) (intI (P := P) eip) := by unfold intI; infer_instance

end Blind

instance : Syncs UpToOperands (movRm2s (P := P) eip) := by unfold movRm2s; exact Syncs.after_decode
instance (s : Width) (f : Word → Word) : Syncs UpToOperands (movExt (P := P) s f d eip) := by
  unfold movExt
  exact Syncs.after_decode
instance : Syncs UpToOperands (movzb (P := P) d eip) := by unfold movzb; infer_instance
instance : Syncs UpToOperands (movsb (P := P) d eip) := by unfold movsb; infer_instance
instance : Syncs UpToOperands (movzwL (P := P) eip) := by unfold movzwL; infer_instance
instance : Syncs UpToOperands (movswL (P := P) eip) := by unfold movswL; infer_instance
instance (set : DescReg → Machine P → Machine P) [∀ Φ r, Synced (Beside Φ) (set r)] :
    Syncs UpToOperands (loadDescReg d set eip) := by
  unfold loadDescReg
  exact Syncs.after_decode
instance : Syncs UpToOperands (lgdt (P := P) d eip) := by unfold lgdt; infer_instance
instance : Syncs UpToOperands (lidt (P := P) d eip) := by unfold lidt; infer_instance
instance : Syncs UpToOperands (btR2rm (P := P) d eip) := by unfold btR2rm; exact Syncs.after_decode
instance (c : Cc) : Syncs UpToOperands (setcc (P := P) c eip) := by unfold setcc; exact Syncs.after_decode
instance (check : Machine P → Bool) [∀ Φ, Seen (Beside Φ) check] : Syncs UpToOperands (cmov d check eip) := by
  unfold cmov
  exact Syncs.after_decode
instance : Syncs UpToOperands (cmove (P := P) d eip) := by unfold cmove; infer_instance
instance : Syncs UpToOperands (cmovle (P := P) d eip) := by unfold cmovle; infer_instance
instance : Syncs UpToOperands (callI (P := P) d eip) := by unfold callI; exact Syncs.after_decode
instance : Syncs UpToOperands (callRm (P := P) d eip) := by unfold callRm; exact Syncs.after_decode
instance : Syncs UpToOperands (inI (P := P) d eip) := by unfold inI; exact Syncs.after_decode
instance : Syncs UpToOperands (outI (P := P) d eip) := by unfold outI; exact Syncs.after_decode
instance : Syncs UpToOperands (imulRm2a (P := P) d eip) := by unfold imulRm2a; exact Syncs.after_decode

instance : Syncs UpToOperands (nextAddr (P := P) d eip) := by
  have hsi : Syncs UpToOperands (decodeSi (P := P) d (eip + 1) >>= fun _ => do
      let simm ← read (·.loc .src)
      return eip + 1 + d.len + simm) := Syncs.after_decode
  unfold nextAddr
  infer_instance

instance (c : Cc) : Syncs UpToOperands (jcc (P := P) d c eip) := by unfold jcc; infer_instance

instance : Syncs UpToOperands (lea (P := P) eip) := by
  unfold lea
  refine ⟨Leads.bind_syncs fun m => .bind (loadAddr_leads _ m) fun r => ?_⟩
  exact Syncs.leads fun _ _ => Beside.forget

instance : Syncs UpToOperands (xchgA2r (P := P) d eip) := by
  unfold xchgA2r
  refine ⟨leads_decode fun _ => .bind (setRegOperand_leads d rEAX) fun _ => ?_⟩
  exact Syncs.leads fun _ _ => Beside.forget

/-- The operand is decoded once more. -/
instance [Knows Φ .src] : Forgets Φ (doJmp (P := P) d) := by
  unfold doJmp
  refine ⟨.bind_syncs fun v => .bind_syncs fun type => .bind_syncs fun eip => ?_⟩
  by_cases ht : type = .mem ∨ type = .reg
  · rw [if_pos ht]
    refine leads_decode fun len => ?_
    exact Syncs.leads fun _ _ => Beside.forget
  · rw [if_neg ht]
    exact Syncs.leads fun _ _ => Beside.forget

omit [Bus P] in
/-- `imul` copies the record of its destination. -/
theorem Beside.setOperand_src2 {n : ℕ} {s t : Machine P}
    (h : Beside (Filled (Filled Unknown .src (Twin n)) .dest Settled) s t) :
    Beside (Filled (Filled (Filled Unknown .src (Twin n)) .dest Settled) .src2 Settled)
      (s.setOperand .src2 (s.operand .dest)) (t.setOperand .src2 (t.operand .dest)) := by
  obtain ⟨f, hf⟩ := h
  refine .intro _ (Function.update f .src2 (f .dest)) ⟨hf.1, s.ops.operand, f, hf, fun j hj => ?_⟩
  exact ⟨Function.update_of_ne hj _ _, Function.update_of_ne hj _ _⟩

instance : Syncs UpToOperands (imulRm2r (P := P) d eip) := by
  unfold imulRm2r
  exact ⟨leads_decode fun len => .bind_write (fun _ _ h => h.setOperand_src2) <|
    Syncs.leads fun _ _ => Beside.forget⟩

instance : Syncs UpToOperands (shrdi (P := P) d eip) := by
  unfold shrdi
  refine ⟨leads_decode fun len => .bind_syncs fun loc => .bind_syncs fun i => .bind_syncs fun v =>
    leads_setVal ?_⟩
  exact Syncs.leads fun _ _ => Beside.forget

end Instructions

end TwoRuns

end Nemu
