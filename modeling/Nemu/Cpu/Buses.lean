/-
# The same processor on two buses

A machine on one bus runs as the machine with the same processor on another one,
if each access to the first bus follows that to the second. Nothing that a
processor does looks at the bus but through its accesses, so this is shown for
every instruction along its structure; then for `exec` with its prefixes, for the
check of `INTR`, and for a step of the main loop.

Key definitions: `OnBus`, `BusFollows`.
Key theorems: `exec_follows`, `execStep_follows`, `checkIntr_follows`.
-/
import Nemu.Cpu.Exec
import Nemu.Lib.Obeys

namespace Nemu

open Bytes Cmd Instr

set_option synthInstance.maxSize 10000

/-- The same processor on another bus. -/
def Machine.onBus {P Q : Type} (m : Machine P) (q : Q) : Machine Q := ⟨m.cpu, m.ops, m.state, q, m.assembly⟩

/-- The two machines have the same processor, and related buses. -/
inductive OnBus {P Q : Type} (ρ : P → Q → Prop) : Machine P → Machine Q → Prop
  | intro (m : Machine P) (q : Q) (h : ρ m.bus q) : OnBus ρ m (m.onBus q)

theorem OnBus.cpu {P Q : Type} {ρ : P → Q → Prop} {m : Machine P} {n : Machine Q} (h : OnBus ρ m n) :
    n.cpu = m.cpu := by
  cases h
  rfl

theorem OnBus.state {P Q : Type} {ρ : P → Q → Prop} {m : Machine P} {n : Machine Q} (h : OnBus ρ m n) :
    n.state = m.state := by
  cases h
  rfl

theorem OnBus.bus {P Q : Type} {ρ : P → Q → Prop} {m : Machine P} {n : Machine Q} (h : OnBus ρ m n) :
    ρ m.bus n.bus := by
  cases h with
  | intro q h => exact h

/-- **Each access to the first bus follows** that to the second, where that succeeds. -/
class BusFollows {P Q : Type} [Bus P] [Bus Q] (ρ : P → Q → Prop) : Prop where
  lnaddrRead : ∀ {cr0 cr3 addr : Word} {len : ℕ} {p : P} {q q' : Q} {v : BitVec (8 * len)}, ρ p q →
    len = 1 ∨ len = 2 ∨ len = 4 → Bus.lnaddrRead cr0 cr3 addr len q = some (v, q') →
    ∃ p', Bus.lnaddrRead cr0 cr3 addr len p = some (v, p') ∧ ρ p' q'
  lnaddrWrite : ∀ {cr0 cr3 addr data : Word} {len : ℕ} {p : P} {q q' : Q}, ρ p q →
    Bus.lnaddrWrite cr0 cr3 addr len data q = some ((), q') →
    ∃ p', Bus.lnaddrWrite cr0 cr3 addr len data p = some ((), p') ∧ ρ p' q'
  initTLB : ∀ {p : P} {q : Q}, ρ p q → ρ (Bus.initTLB p) (Bus.initTLB q)
  pioRead : ∀ {addr : BitVec 16} {len : ℕ} {p : P} {q q' : Q} {v : BitVec (8 * len)}, ρ p q →
    Bus.pioRead addr len q = some (v, q') → ∃ p', Bus.pioRead addr len p = some (v, p') ∧ ρ p' q'
  pioWrite : ∀ {addr : BitVec 16} {len : ℕ} {data : Word} {p : P} {q q' : Q}, ρ p q →
    Bus.pioWrite addr len data q = some ((), q') → ∃ p', Bus.pioWrite addr len data p = some ((), p') ∧ ρ p' q'
  INTR : ∀ {p : P} {q : Q}, ρ p q → Bus.INTR p = Bus.INTR q
  i8259QueryIntr : ∀ {p : P} {q : Q}, ρ p q → Bus.i8259QueryIntr p = Bus.i8259QueryIntr q
  i8259AckIntr : ∀ {p : P} {q q' : Q}, ρ p q → Bus.i8259AckIntr q = some ((), q') →
    ∃ p', Bus.i8259AckIntr p = some ((), p') ∧ ρ p' q'

section Buses

variable {P Q : Type} {ρ : P → Q → Prop}

/-! ### The processor -/

section Processor

/-- A change of something else than the bus. -/
theorem writesAs_beside {f : Machine P → Machine P} {g : Machine Q → Machine Q}
    (hg : ∀ m q, g (m.onBus q) = (f m).onBus q) (hbus : ∀ m, (f m).bus = m.bus) : WritesAs (OnBus ρ) f g := by
  refine ⟨fun s t hst => ?_⟩
  obtain ⟨q, h⟩ := hst
  rw [hg]
  exact .intro _ q (by rwa [hbus])

instance (d : Width) (i : Fin 8) :
    ReadsAs (OnBus ρ) (fun m : Machine P => m.reg d i) (fun m : Machine Q => m.reg d i) := ⟨by rintro _ _ ⟨⟩; rfl⟩
instance : ReadsAs (OnBus ρ) (fun m : Machine P => m.assembly.length.val)
    (fun m : Machine Q => m.assembly.length.val) := ⟨by rintro _ _ ⟨⟩; rfl⟩
instance (f : Flag) : ReadsAs (OnBus ρ) (fun m : Machine P => m.flag f) (fun m : Machine Q => m.flag f) :=
  ⟨by rintro _ _ ⟨⟩; rfl⟩
instance : ReadsAs (OnBus ρ) (fun m : Machine P => m.eip) (fun m : Machine Q => m.eip) := ⟨by rintro _ _ ⟨⟩; rfl⟩
instance : ReadsAs (OnBus ρ) (fun m : Machine P => m.cpu.eflags) (fun m : Machine Q => m.cpu.eflags) :=
  ⟨by rintro _ _ ⟨⟩; rfl⟩
instance : ReadsAs (OnBus ρ) (fun m : Machine P => m.cpu.cr0) (fun m : Machine Q => m.cpu.cr0) :=
  ⟨by rintro _ _ ⟨⟩; rfl⟩
instance : ReadsAs (OnBus ρ) (fun m : Machine P => (m.cpu.cr0, m.cpu.cr3)) (fun m : Machine Q => (m.cpu.cr0, m.cpu.cr3)) :=
  ⟨by rintro _ _ ⟨⟩; rfl⟩
instance : ReadsAs (OnBus ρ) (fun m : Machine P => m.cpu.gdtr.base) (fun m : Machine Q => m.cpu.gdtr.base) :=
  ⟨by rintro _ _ ⟨⟩; rfl⟩
instance : ReadsAs (OnBus ρ) (fun m : Machine P => m.cpu.idtr.base) (fun m : Machine Q => m.cpu.idtr.base) :=
  ⟨by rintro _ _ ⟨⟩; rfl⟩
instance (i : Fin 6) : ReadsAs (OnBus ρ) (fun m : Machine P => (m.cpu.sreg i).selector)
    (fun m : Machine Q => (m.cpu.sreg i).selector) := ⟨by rintro _ _ ⟨⟩; rfl⟩
instance (i : Fin 6) : ReadsAs (OnBus ρ) (fun m : Machine P => (m.cpu.sreg i).cache.base)
    (fun m : Machine Q => (m.cpu.sreg i).cache.base) := ⟨by rintro _ _ ⟨⟩; rfl⟩
instance (addr : Word) (i : Fin 6) : ReadsAs (OnBus ρ) (fun m : Machine P => m.cpu.linear addr i)
    (fun m : Machine Q => m.cpu.linear addr i) := ⟨by rintro _ _ ⟨⟩; rfl⟩
instance (i : Option (Fin 8)) : ReadsAs (OnBus ρ) (fun m : Machine P => m.cpu.regOr0 i)
    (fun m : Machine Q => m.cpu.regOr0 i) := ⟨by rintro _ _ ⟨⟩; rfl⟩
instance : ReadsAs (OnBus ρ) (fun m : Machine P => m.ops.opcode) (fun m : Machine Q => m.ops.opcode) :=
  ⟨by rintro _ _ ⟨⟩; rfl⟩
instance : ReadsAs (OnBus ρ) (fun m : Machine P => m.ops.isOperandSize16)
    (fun m : Machine Q => m.ops.isOperandSize16) := ⟨by rintro _ _ ⟨⟩; rfl⟩
instance (k : Slot) : ReadsAs (OnBus ρ) (fun m : Machine P => m.val k) (fun m : Machine Q => m.val k) :=
  ⟨by rintro _ _ ⟨⟩; rfl⟩
instance (k : Slot) : ReadsAs (OnBus ρ) (fun m : Machine P => m.loc k) (fun m : Machine Q => m.loc k) :=
  ⟨by rintro _ _ ⟨⟩; rfl⟩
instance (k : Slot) : ReadsAs (OnBus ρ) (fun m : Machine P => m.type k) (fun m : Machine Q => m.type k) :=
  ⟨by rintro _ _ ⟨⟩; rfl⟩
instance (k : Slot) : ReadsAs (OnBus ρ) (fun m : Machine P => (m.operand k).size)
    (fun m : Machine Q => (m.operand k).size) := ⟨by rintro _ _ ⟨⟩; rfl⟩
instance (k : Slot) : ReadsAs (OnBus ρ) (fun m : Machine P => (m.operand k).sreg)
    (fun m : Machine Q => (m.operand k).sreg) := ⟨by rintro _ _ ⟨⟩; rfl⟩
instance : ReadsAs (OnBus ρ) (fun m : Machine P => m.state) (fun m : Machine Q => m.state) :=
  ⟨by rintro _ _ ⟨⟩; rfl⟩
instance (c : Cc) : ReadsAs (OnBus ρ) (fun m : Machine P => c.test m) (fun m : Machine Q => c.test m) :=
  ⟨by rintro _ _ ⟨⟩; cases c <;> rfl⟩
instance : ReadsAs (OnBus ρ) (checkCcE (P := P)) (checkCcE (P := Q)) := ⟨by rintro _ _ ⟨⟩; rfl⟩
instance : ReadsAs (OnBus ρ) (checkCcLe (P := P)) (checkCcLe (P := Q)) := ⟨by rintro _ _ ⟨⟩; rfl⟩

instance (d : Width) (i : Fin 8) (v : Word) :
    WritesAs (OnBus ρ) (Machine.setReg (P := P) · d i v) (Machine.setReg (P := Q) · d i v) :=
  writesAs_beside (fun _ _ => rfl) fun _ => rfl
instance (f : Flag) (b : Bool) :
    WritesAs (OnBus ρ) (Machine.setFlag (P := P) · f b) (Machine.setFlag (P := Q) · f b) :=
  writesAs_beside (fun _ _ => rfl) fun _ => rfl
instance (v : Word) : WritesAs (OnBus ρ) (Machine.setEflags (P := P) · v) (Machine.setEflags (P := Q) · v) :=
  writesAs_beside (fun _ _ => rfl) fun _ => rfl
instance (v : Word) : WritesAs (OnBus ρ) (Machine.setEip (P := P) · v) (Machine.setEip (P := Q) · v) :=
  writesAs_beside (fun _ _ => rfl) fun _ => rfl
instance (r : DescReg) : WritesAs (OnBus ρ) (Machine.setGdtr (P := P) · r) (Machine.setGdtr (P := Q) · r) :=
  writesAs_beside (fun _ _ => rfl) fun _ => rfl
instance (r : DescReg) : WritesAs (OnBus ρ) (Machine.setIdtr (P := P) · r) (Machine.setIdtr (P := Q) · r) :=
  writesAs_beside (fun _ _ => rfl) fun _ => rfl
instance (v : Word) : WritesAs (OnBus ρ) (Machine.setCr0 (P := P) · v) (Machine.setCr0 (P := Q) · v) :=
  writesAs_beside (fun _ _ => rfl) fun _ => rfl
instance (v : Word) : WritesAs (OnBus ρ) (Machine.setCr3 (P := P) · v) (Machine.setCr3 (P := Q) · v) :=
  writesAs_beside (fun _ _ => rfl) fun _ => rfl
instance (i : Fin 6) (r : SegReg) :
    WritesAs (OnBus ρ) (Machine.setSreg (P := P) · i r) (Machine.setSreg (P := Q) · i r) :=
  writesAs_beside (fun _ _ => rfl) fun _ => rfl
instance (i : Fin 6) (v : BitVec 16) :
    WritesAs (OnBus ρ) (Machine.setSelector (P := P) · i v) (Machine.setSelector (P := Q) · i v) :=
  writesAs_beside (fun _ _ => rfl) fun _ => rfl
instance (v : Word) : WritesAs (OnBus ρ) (Machine.setOpcode (P := P) · v) (Machine.setOpcode (P := Q) · v) :=
  writesAs_beside (fun _ _ => rfl) fun _ => rfl
instance (b : Bool) :
    WritesAs (OnBus ρ) (Machine.setOperandSize16 (P := P) · b) (Machine.setOperandSize16 (P := Q) · b) :=
  writesAs_beside (fun _ _ => rfl) fun _ => rfl
instance (k : Slot) (t : OpType) :
    WritesAs (OnBus ρ) (Machine.setType (P := P) · k t) (Machine.setType (P := Q) · k t) :=
  writesAs_beside (fun _ _ => rfl) fun _ => rfl
instance (k : Slot) (n : ℕ) :
    WritesAs (OnBus ρ) (Machine.setSize (P := P) · k n) (Machine.setSize (P := Q) · k n) :=
  writesAs_beside (fun _ _ => rfl) fun _ => rfl
instance (k : Slot) (v : Word) :
    WritesAs (OnBus ρ) (Machine.setLoc (P := P) · k v) (Machine.setLoc (P := Q) · k v) :=
  writesAs_beside (fun _ _ => rfl) fun _ => rfl
instance (k : Slot) (n : ℕ) :
    WritesAs (OnBus ρ) (Machine.setOpSreg (P := P) · k n) (Machine.setOpSreg (P := Q) · k n) :=
  writesAs_beside (fun _ _ => rfl) fun _ => rfl
instance (k : Slot) (v : Word) :
    WritesAs (OnBus ρ) (Machine.setVal (P := P) · k v) (Machine.setVal (P := Q) · k v) :=
  writesAs_beside (fun _ _ => rfl) fun _ => rfl
instance (k k' : Slot) : WritesAs (OnBus ρ) (fun m : Machine P => m.setOperand k (m.operand k'))
    (fun m : Machine Q => m.setOperand k (m.operand k')) := writesAs_beside (fun _ _ => rfl) fun _ => rfl
instance (n : NemuState) : WritesAs (OnBus ρ) (Machine.setState (P := P) · n) (Machine.setState (P := Q) · n) :=
  writesAs_beside (fun _ _ => rfl) fun _ => rfl
instance (n : Fin 80) : WritesAs (OnBus ρ) (Machine.setText (P := P) · n) (Machine.setText (P := Q) · n) :=
  writesAs_beside (fun _ _ => rfl) fun _ => rfl

end Processor

/-! ### Memory and ports -/

/-- A machine's command follows the same command on the other bus. -/
abbrev Alongside {α : Type} (ρ : P → Q → Prop) (c : Cmd (Machine P) α) (d : Cmd (Machine Q) α) : Prop :=
  Obeys (OnBus ρ) c d

theorem bus_follows {α : Type} {f : P → Option (α × P)} {g : Q → Option (α × Q)}
    (h : ∀ p q a q', ρ p q → g q = some (a, q') → ∃ p', f p = some (a, p') ∧ ρ p' q') :
    Alongside ρ (bus f) (bus g) := by
  refine Obeys.access fun s t a t' hst ht => ?_
  obtain ⟨q, hρ⟩ := hst
  obtain ⟨⟨b, q'⟩, hq, hr⟩ := Option.map_eq_some_iff.mp ht
  obtain ⟨rfl, rfl⟩ := Prod.mk.inj hr
  obtain ⟨p', hp, hρ'⟩ := h _ _ _ _ hρ hq
  exact ⟨s.setBus p', by rw [hp]; rfl, .intro (s.setBus p') q' hρ'⟩

section Accesses

variable [Bus P] [Bus Q] [hb : BusFollows ρ]

instance : ReadsAs (OnBus ρ) (fun m : Machine P => Bus.INTR m.bus) (fun m : Machine Q => Bus.INTR m.bus) :=
  ⟨fun _ _ h => hb.INTR h.bus⟩
instance : ReadsAs (OnBus ρ) (fun m : Machine P => Bus.i8259QueryIntr m.bus)
    (fun m : Machine Q => Bus.i8259QueryIntr m.bus) := ⟨fun _ _ h => hb.i8259QueryIntr h.bus⟩
instance : WritesAs (OnBus ρ) (fun m : Machine P => m.setBus (Bus.initTLB m.bus))
    (fun m : Machine Q => m.setBus (Bus.initTLB m.bus)) := by
  refine ⟨fun s t hst => ?_⟩
  obtain ⟨q, h⟩ := hst
  exact .intro (s.setBus _) _ (hb.initTLB h)

instance (addr : BitVec 16) (len : ℕ) :
    Alongside ρ (bus (Bus.pioRead (P := P) addr len)) (bus (Bus.pioRead (P := Q) addr len)) :=
  bus_follows fun _ _ _ _ => hb.pioRead
instance (addr : BitVec 16) (len : ℕ) (data : Word) :
    Alongside ρ (bus (Bus.pioWrite (P := P) addr len data)) (bus (Bus.pioWrite (P := Q) addr len data)) :=
  bus_follows fun _ _ _ _ => hb.pioWrite
instance : Alongside ρ (bus (Bus.i8259AckIntr (P := P))) (bus (Bus.i8259AckIntr (P := Q))) :=
  bus_follows fun _ _ _ _ => hb.i8259AckIntr

instance (addr : Word) (len : ℕ) : Alongside ρ (lnaddrRead (P := P) addr len) (lnaddrRead (P := Q) addr len) := by
  unfold lnaddrRead
  by_cases hl : len = 1 ∨ len = 2 ∨ len = 4
  · have hbus : ∀ c : Word × Word, Alongside ρ (bus (Bus.lnaddrRead (P := P) c.1 c.2 addr len))
        (bus (Bus.lnaddrRead (P := Q) c.1 c.2 addr len)) := fun c => bus_follows fun _ _ _ _ h => hb.lnaddrRead h hl
    rw [if_pos hl, if_pos hl]
    infer_instance
  · rw [if_neg hl, if_neg hl]
    infer_instance

instance (addr : Word) (len : ℕ) (data : Word) :
    Alongside ρ (lnaddrWrite (P := P) addr len data) (lnaddrWrite (P := Q) addr len data) := by
  have hbus : ∀ c : Word × Word, Alongside ρ (bus (Bus.lnaddrWrite (P := P) c.1 c.2 addr len data))
      (bus (Bus.lnaddrWrite (P := Q) c.1 c.2 addr len data)) := fun c => bus_follows fun _ _ _ _ => hb.lnaddrWrite
  unfold lnaddrWrite
  infer_instance

instance (addr : Word) (sreg : ℕ) : Alongside ρ (segTranslate (P := P) addr sreg) (segTranslate (P := Q) addr sreg) := by
  unfold segTranslate
  infer_instance
instance (addr : Word) (len sreg : ℕ) :
    Alongside ρ (swaddrRead (P := P) addr len sreg) (swaddrRead (P := Q) addr len sreg) := by
  unfold swaddrRead
  infer_instance
instance (addr : Word) (len : ℕ) (data : Word) (sreg : ℕ) :
    Alongside ρ (swaddrWrite (P := P) addr len data sreg) (swaddrWrite (P := Q) addr len data sreg) := by
  unfold swaddrWrite
  infer_instance
instance (addr : Word) (len : ℕ) : Alongside ρ (instrFetch (P := P) addr len) (instrFetch (P := Q) addr len) := by
  unfold instrFetch
  infer_instance
instance (i : Fin 6) (v : BitVec 16) : Alongside ρ (loadSreg (P := P) i v) (loadSreg (P := Q) i v) := by
  unfold loadSreg
  dsimp only
  infer_instance

/-! ### Decoders -/

section Decoders

variable (d : Width) (k k' : Slot) (eip : Word)

instance (m : Word) : Alongside ρ (loadAddr (P := P) eip m k) (loadAddr (P := Q) eip m k) := by
  unfold loadAddr
  dsimp only
  infer_instance
instance : Alongside ρ (readModRM (P := P) d eip k k') (readModRM (P := Q) d eip k k') := by
  unfold readModRM
  dsimp only
  infer_instance
instance : Alongside ρ (decodeRmInternal (P := P) d eip k k') (decodeRmInternal (P := Q) d eip k k') := by
  unfold decodeRmInternal
  infer_instance
instance : Alongside ρ (decodeN (P := P) eip) (decodeN (P := Q) eip) := by unfold decodeN; infer_instance
instance : Alongside ρ (decodeI (P := P) d eip) (decodeI (P := Q) d eip) := by unfold decodeI; infer_instance
instance : Alongside ρ (decodeSi (P := P) d eip) (decodeSi (P := Q) d eip) := by unfold decodeSi; infer_instance
instance (i : Fin 8) : Alongside ρ (setRegOperand (P := P) d k i) (setRegOperand (P := Q) d k i) := by
  unfold setRegOperand
  infer_instance
instance : Alongside ρ (decodeA (P := P) d k) (decodeA (P := Q) d k) := by unfold decodeA; infer_instance
instance : Alongside ρ (decodeRInternal (P := P) d k) (decodeRInternal (P := Q) d k) := by
  unfold decodeRInternal
  infer_instance
instance : Alongside ρ (decodeR2rm (P := P) d eip) (decodeR2rm (P := Q) d eip) := by
  unfold decodeR2rm
  infer_instance
instance : Alongside ρ (decodeRm2r (P := P) d eip) (decodeRm2r (P := Q) d eip) := by
  unfold decodeRm2r
  infer_instance
instance : Alongside ρ (decodeI2a (P := P) d eip) (decodeI2a (P := Q) d eip) := by unfold decodeI2a; infer_instance
instance : Alongside ρ (decodeIRm2r (P := P) d eip) (decodeIRm2r (P := Q) d eip) := by
  unfold decodeIRm2r
  infer_instance
instance : Alongside ρ (decodeI2rm (P := P) d eip) (decodeI2rm (P := Q) d eip) := by
  unfold decodeI2rm
  infer_instance
instance : Alongside ρ (decodeI2r (P := P) d eip) (decodeI2r (P := Q) d eip) := by unfold decodeI2r; infer_instance
instance : Alongside ρ (decodeRm (P := P) d eip) (decodeRm (P := Q) d eip) := by unfold decodeRm; infer_instance
instance : Alongside ρ (decodeR (P := P) d eip) (decodeR (P := Q) d eip) := by unfold decodeR; infer_instance
instance : Alongside ρ (decodeSi2rm (P := P) d eip) (decodeSi2rm (P := Q) d eip) := by
  unfold decodeSi2rm
  infer_instance
instance : Alongside ρ (decodeSiRm2r (P := P) d eip) (decodeSiRm2r (P := Q) d eip) := by
  unfold decodeSiRm2r
  infer_instance
instance : Alongside ρ (decodeRm1 (P := P) d eip) (decodeRm1 (P := Q) d eip) := by unfold decodeRm1; infer_instance
instance : Alongside ρ (decodeRmCl (P := P) d eip) (decodeRmCl (P := Q) d eip) := by
  unfold decodeRmCl
  infer_instance
instance : Alongside ρ (decodeRmImm (P := P) d eip) (decodeRmImm (P := Q) d eip) := by
  unfold decodeRmImm
  infer_instance

end Decoders

/-! ### Instructions -/

section Instructions

variable (d : Width) (k : Slot) (eip : Word)

instance (i : Word) : Alongside ρ (checkRegIndex (P := P) i) (checkRegIndex (P := Q) i) := by
  unfold checkRegIndex
  infer_instance
instance (v : Word) : Alongside ρ (writeOperand (P := P) d k v) (writeOperand (P := Q) d k v) := by
  unfold writeOperand
  infer_instance
instance (decode : Helper P) (decode' : Helper Q) (execute : Cmd (Machine P) Unit) (execute' : Cmd (Machine Q) Unit)
    [∀ eip, Alongside ρ (decode eip) (decode' eip)] [Alongside ρ execute execute'] :
    Alongside ρ (idex decode execute eip) (idex decode' execute' eip) := by
  unfold idex
  infer_instance
instance (h : Width → Helper P) (h' : Width → Helper Q) [∀ d, Alongside ρ (h d eip) (h' d eip)] :
    Alongside ρ (helperV h eip) (helperV h' eip) := by
  unfold helperV
  infer_instance

instance (r : Word) : Alongside ρ (setResultFlags (P := P) d r) (setResultFlags (P := Q) d r) := by
  unfold setResultFlags
  infer_instance
instance (x y r : Word) : Alongside ρ (setAddFlags (P := P) d x y r) (setAddFlags (P := Q) d x y r) := by
  unfold setAddFlags
  infer_instance
instance (c : Bool) (x y r : Word) :
    Alongside ρ (setSubFlags (P := P) d c x y r) (setSubFlags (P := Q) d c x y r) := by
  unfold setSubFlags
  infer_instance
instance (r : Word) : Alongside ρ (setLogicFlags (P := P) d r) (setLogicFlags (P := Q) d r) := by
  unfold setLogicFlags
  infer_instance
instance (r : ℤ) : Alongside ρ (setDouble (P := P) d r) (setDouble (P := Q) d r) := by
  unfold setDouble
  infer_instance
instance (b q r : ℤ) : Alongside ρ (setQuotient (P := P) d b q r) (setQuotient (P := Q) d b q r) := by
  unfold setQuotient
  infer_instance
instance (i : Fin 8) : Alongside ρ (stepIndex (P := P) d i) (stepIndex (P := Q) d i) := by
  unfold stepIndex
  infer_instance
instance : Alongside ρ (doAdd (P := P) d) (doAdd (P := Q) d) := by unfold doAdd; infer_instance
instance : Alongside ρ (doAdc (P := P) d) (doAdc (P := Q) d) := by unfold doAdc; infer_instance
instance : Alongside ρ (doSub (P := P) d) (doSub (P := Q) d) := by unfold doSub; infer_instance
instance : Alongside ρ (doCmp (P := P) d) (doCmp (P := Q) d) := by unfold doCmp; infer_instance
instance : Alongside ρ (doSbb (P := P) d) (doSbb (P := Q) d) := by
  unfold doSbb
  dsimp only
  infer_instance
instance (f : Word → Word → Word) : Alongside ρ (doLogic (P := P) d f) (doLogic (P := Q) d f) := by
  unfold doLogic
  infer_instance
instance : Alongside ρ (doAnd (P := P) d) (doAnd (P := Q) d) := by unfold doAnd; infer_instance
instance : Alongside ρ (doOr (P := P) d) (doOr (P := Q) d) := by unfold doOr; infer_instance
instance : Alongside ρ (doXor (P := P) d) (doXor (P := Q) d) := by unfold doXor; infer_instance
instance : Alongside ρ (doTest (P := P) d) (doTest (P := Q) d) := by unfold doTest; infer_instance
instance : Alongside ρ (doInc (P := P) d) (doInc (P := Q) d) := by unfold doInc; infer_instance
instance : Alongside ρ (doDec (P := P) d) (doDec (P := Q) d) := by unfold doDec; infer_instance
instance : Alongside ρ (doNeg (P := P) d) (doNeg (P := Q) d) := by unfold doNeg; infer_instance
instance : Alongside ρ (doNot (P := P) d) (doNot (P := Q) d) := by unfold doNot; infer_instance
instance (c : Word → Bool) (f : Word → ℕ → Word) : Alongside ρ (doShift (P := P) d c f) (doShift (P := Q) d c f) := by
  unfold doShift
  infer_instance
instance : Alongside ρ (doShl (P := P) d) (doShl (P := Q) d) := by unfold doShl; infer_instance
instance : Alongside ρ (doShr (P := P) d) (doShr (P := Q) d) := by unfold doShr; infer_instance
instance : Alongside ρ (doSar (P := P) d) (doSar (P := Q) d) := by unfold doSar; infer_instance
instance : Alongside ρ (doShrd (P := P) d) (doShrd (P := Q) d) := by unfold doShrd; infer_instance
instance : Alongside ρ (shrdi (P := P) d eip) (shrdi (P := Q) d eip) := by unfold shrdi; infer_instance
instance : Alongside ρ (doMul (P := P) d) (doMul (P := Q) d) := by unfold doMul; infer_instance
instance : Alongside ρ (doImul (P := P) d) (doImul (P := Q) d) := by unfold doImul; infer_instance
instance : Alongside ρ (imulRm2r (P := P) d eip) (imulRm2r (P := Q) d eip) := by unfold imulRm2r; infer_instance
instance : Alongside ρ (imulRm2a (P := P) d eip) (imulRm2a (P := Q) d eip) := by unfold imulRm2a; infer_instance
instance : Alongside ρ (doDiv (P := P) d) (doDiv (P := Q) d) := by unfold doDiv; infer_instance
instance : Alongside ρ (doIdiv (P := P) d) (doIdiv (P := Q) d) := by
  unfold doIdiv
  dsimp only
  infer_instance

instance : Alongside ρ (doMov (P := P) d) (doMov (P := Q) d) := by unfold doMov; infer_instance
instance : Alongside ρ (movA2moffs (P := P) d eip) (movA2moffs (P := Q) d eip) := by
  unfold movA2moffs
  infer_instance
instance : Alongside ρ (movMoffs2a (P := P) d eip) (movMoffs2a (P := Q) d eip) := by
  unfold movMoffs2a
  infer_instance
instance : Alongside ρ (movCr2r (P := P) eip) (movCr2r (P := Q) eip) := by unfold movCr2r; infer_instance
instance : Alongside ρ (movR2cr (P := P) eip) (movR2cr (P := Q) eip) := by unfold movR2cr; infer_instance
instance : Alongside ρ (movRm2s (P := P) eip) (movRm2s (P := Q) eip) := by unfold movRm2s; infer_instance
instance (s : Width) (f : Word → Word) : Alongside ρ (movExt (P := P) s f d eip) (movExt (P := Q) s f d eip) := by
  unfold movExt
  infer_instance
instance : Alongside ρ (movzb (P := P) d eip) (movzb (P := Q) d eip) := by unfold movzb; infer_instance
instance : Alongside ρ (movsb (P := P) d eip) (movsb (P := Q) d eip) := by unfold movsb; infer_instance
instance : Alongside ρ (movzwL (P := P) eip) (movzwL (P := Q) eip) := by unfold movzwL; infer_instance
instance : Alongside ρ (movswL (P := P) eip) (movswL (P := Q) eip) := by unfold movswL; infer_instance
instance : Alongside ρ (doXchg (P := P) d) (doXchg (P := Q) d) := by unfold doXchg; infer_instance
instance : Alongside ρ (xchgA2r (P := P) d eip) (xchgA2r (P := Q) d eip) := by unfold xchgA2r; infer_instance
instance : Alongside ρ (lea (P := P) eip) (lea (P := Q) eip) := by unfold lea; infer_instance
instance : Alongside ρ (cltd (P := P) d eip) (cltd (P := Q) d eip) := by unfold cltd; infer_instance
instance : Alongside ρ (cwtl (P := P) d eip) (cwtl (P := Q) d eip) := by
  unfold cwtl
  dsimp only
  infer_instance
instance (set : DescReg → Machine P → Machine P) (set' : DescReg → Machine Q → Machine Q)
    [∀ r, WritesAs (OnBus ρ) (set r) (set' r)] : Alongside ρ (loadDescReg d set eip) (loadDescReg d set' eip) := by
  unfold loadDescReg
  infer_instance
instance : Alongside ρ (lgdt (P := P) d eip) (lgdt (P := Q) d eip) := by unfold lgdt; infer_instance
instance : Alongside ρ (lidt (P := P) d eip) (lidt (P := Q) d eip) := by unfold lidt; infer_instance
instance : Alongside ρ (doBt (P := P) d) (doBt (P := Q) d) := by unfold doBt; infer_instance
instance : Alongside ρ (btR2rm (P := P) d eip) (btR2rm (P := Q) d eip) := by unfold btR2rm; infer_instance
instance : Alongside ρ (btI2rm (P := P) d eip) (btI2rm (P := Q) d eip) := by unfold btI2rm; infer_instance

instance : Alongside ρ (doPush (P := P) d) (doPush (P := Q) d) := by
  unfold doPush
  dsimp only
  infer_instance
instance : Alongside ρ (doPop (P := P) d) (doPop (P := Q) d) := by unfold doPop; infer_instance
instance (v : Word) : Alongside ρ (pushReg (P := P) d v) (pushReg (P := Q) d v) := by
  unfold pushReg
  infer_instance
instance : Alongside ρ (pusha (P := P) d eip) (pusha (P := Q) d eip) := by unfold pusha; infer_instance
instance (i : Fin 8) : Alongside ρ (popReg (P := P) d i) (popReg (P := Q) d i) := by unfold popReg; infer_instance
instance : Alongside ρ (popa (P := P) d eip) (popa (P := Q) d eip) := by unfold popa; infer_instance
instance : Alongside ρ (leave (P := P) eip) (leave (P := Q) eip) := by unfold leave; infer_instance

instance (c : Cc) : Alongside ρ (setcc (P := P) c eip) (setcc (P := Q) c eip) := by unfold setcc; infer_instance
instance (check : Machine P → Bool) (check' : Machine Q → Bool) [ReadsAs (OnBus ρ) check check'] :
    Alongside ρ (cmov d check eip) (cmov d check' eip) := by
  unfold cmov
  infer_instance
instance : Alongside ρ (cmove (P := P) d eip) (cmove (P := Q) d eip) := by unfold cmove; infer_instance
instance : Alongside ρ (cmovle (P := P) d eip) (cmovle (P := Q) d eip) := by unfold cmovle; infer_instance
instance : Alongside ρ (nextAddr (P := P) d eip) (nextAddr (P := Q) d eip) := by unfold nextAddr; infer_instance
instance (c : Cc) : Alongside ρ (jcc (P := P) d c eip) (jcc (P := Q) d c eip) := by unfold jcc; infer_instance
instance : Alongside ρ (doJmp (P := P) d) (doJmp (P := Q) d) := by unfold doJmp; infer_instance
instance : Alongside ρ (jmpL (P := P) d eip) (jmpL (P := Q) d eip) := by
  unfold jmpL
  dsimp only
  infer_instance
instance : Alongside ρ (callI (P := P) d eip) (callI (P := Q) d eip) := by unfold callI; infer_instance
instance : Alongside ρ (callRm (P := P) d eip) (callRm (P := Q) d eip) := by unfold callRm; infer_instance
instance : Alongside ρ (retO (P := P) d eip) (retO (P := Q) d eip) := by unfold retO; infer_instance
instance : Alongside ρ (retI (P := P) d eip) (retI (P := Q) d eip) := by unfold retI; infer_instance
instance : Alongside ρ (iret (P := P) eip) (iret (P := Q) eip) := by unfold iret; infer_instance

instance : Alongside ρ (doMovs (P := P) d) (doMovs (P := Q) d) := by unfold doMovs; infer_instance
instance : Alongside ρ (doStos (P := P) d) (doStos (P := Q) d) := by unfold doStos; infer_instance
instance : Alongside ρ (doLods (P := P) d) (doLods (P := Q) d) := by unfold doLods; infer_instance
instance : Alongside ρ (doScas (P := P) d) (doScas (P := Q) d) := by unfold doScas; infer_instance
instance : Alongside ρ (inI (P := P) d eip) (inI (P := Q) d eip) := by unfold inI; infer_instance
instance : Alongside ρ (inD (P := P) d eip) (inD (P := Q) d eip) := by unfold inD; infer_instance
instance : Alongside ρ (outI (P := P) d eip) (outI (P := Q) d eip) := by unfold outI; infer_instance
instance : Alongside ρ (outD (P := P) d eip) (outD (P := Q) d eip) := by unfold outD; infer_instance
instance : Alongside ρ (hlt (P := P) eip) (hlt (P := Q) eip) := by unfold hlt; infer_instance
instance : Alongside ρ (cli (P := P) eip) (cli (P := Q) eip) := by unfold cli; infer_instance
instance : Alongside ρ (sti (P := P) eip) (sti (P := Q) eip) := by unfold sti; infer_instance
instance : Alongside ρ (cld (P := P) eip) (cld (P := Q) eip) := by unfold cld; infer_instance
instance : Alongside ρ (std (P := P) eip) (std (P := Q) eip) := by unfold std; infer_instance
instance : Alongside ρ (nop (P := P) eip) (nop (P := Q) eip) := by unfold nop; infer_instance
instance : Alongside ρ (int3 (P := P) eip) (int3 (P := Q) eip) := by unfold int3; infer_instance
instance : Alongside ρ (nemuTrap (P := P) eip) (nemuTrap (P := Q) eip) := by unfold nemuTrap; infer_instance
instance : Alongside ρ (inv (P := P) eip) (inv (P := Q) eip) := by unfold inv; infer_instance
instance (no : Byte) : Alongside ρ (Nemu.raiseIntr (P := P) no) (Nemu.raiseIntr (P := Q) no) := by
  unfold Nemu.raiseIntr
  dsimp only
  infer_instance
instance : Alongside ρ (intI (P := P) eip) (intI (P := Q) eip) := by unfold intI; infer_instance

end Instructions

/-! ### The tables -/

section Tables

section Ops

variable (e : Width → Cmd (Machine P) Unit) (e' : Width → Cmd (Machine Q) Unit) (d : Width) (eip : Word)
  [∀ d, Alongside ρ (e d) (e' d)]

instance : Alongside ρ (opR2rm e d eip) (opR2rm e' d eip) := by unfold opR2rm; infer_instance
instance : Alongside ρ (opRm2r e d eip) (opRm2r e' d eip) := by unfold opRm2r; infer_instance
instance : Alongside ρ (opI2rm e d eip) (opI2rm e' d eip) := by unfold opI2rm; infer_instance
instance : Alongside ρ (opSi2rm e d eip) (opSi2rm e' d eip) := by unfold opSi2rm; infer_instance
instance : Alongside ρ (opI2a e d eip) (opI2a e' d eip) := by unfold opI2a; infer_instance
instance : Alongside ρ (opI2r e d eip) (opI2r e' d eip) := by unfold opI2r; infer_instance
instance : Alongside ρ (opRm e d eip) (opRm e' d eip) := by unfold opRm; infer_instance
instance : Alongside ρ (opR e d eip) (opR e' d eip) := by unfold opR; infer_instance
instance : Alongside ρ (opI e d eip) (opI e' d eip) := by unfold opI; infer_instance
instance : Alongside ρ (opN e d eip) (opN e' d eip) := by unfold opN; infer_instance
instance : Alongside ρ (opIRm2r e d eip) (opIRm2r e' d eip) := by unfold opIRm2r; infer_instance
instance : Alongside ρ (opSiRm2r e d eip) (opSiRm2r e' d eip) := by unfold opSiRm2r; infer_instance
instance : Alongside ρ (opRm1 e d eip) (opRm1 e' d eip) := by unfold opRm1; infer_instance
instance : Alongside ρ (opRmCl e d eip) (opRmCl e' d eip) := by unfold opRmCl; infer_instance
instance : Alongside ρ (opRmImm e d eip) (opRmImm e' d eip) := by unfold opRmImm; infer_instance

end Ops

/-- Every entry of a table follows the entry of the other one. -/
class TableFollows (ρ : P → Q → Prop) (table : List (Helper P)) (table' : List (Helper Q)) : Prop where
  follows : List.Forall₂ (fun h h' => ∀ eip, Alongside ρ (h eip) (h' eip)) table table'

omit [Bus P] [Bus Q] hb in
instance : TableFollows ρ [] [] := ⟨.nil⟩

omit [Bus P] [Bus Q] hb in
instance {h : Helper P} {h' : Helper Q} {table : List (Helper P)} {table' : List (Helper Q)}
    [hh : ∀ eip, Alongside ρ (h eip) (h' eip)] [ht : TableFollows ρ table table'] :
    TableFollows ρ (h :: table) (h' :: table') := ⟨.cons hh ht.follows⟩

instance {table : List (Helper P)} {table' : List (Helper Q)} [ht : TableFollows ρ table table'] (k : ℕ) (eip : Word) :
    Alongside ρ (entry table k eip) (entry table' k eip) := by
  have hall := ht.follows
  unfold entry
  clear ht
  induction hall generalizing k with
  | nil => exact inferInstanceAs (Alongside ρ (inv eip) (inv eip))
  | cons hh _ ih =>
    cases k with
    | zero => exact hh eip
    | succ k => exact ih k

instance {table : List (Helper P)} {table' : List (Helper Q)} [TableFollows ρ table table'] (eip : Word) :
    Alongside ρ (group table eip) (group table' eip) := by
  unfold group
  infer_instance

instance : TableFollows ρ (group1B (P := P)) (group1B (P := Q)) := by unfold group1B; infer_instance
instance : TableFollows ρ (group1V (P := P)) (group1V (P := Q)) := by unfold group1V; infer_instance
instance : TableFollows ρ (group1SxV (P := P)) (group1SxV (P := Q)) := by unfold group1SxV; infer_instance
instance : TableFollows ρ (group2IB (P := P)) (group2IB (P := Q)) := by unfold group2IB; infer_instance
instance : TableFollows ρ (group2IV (P := P)) (group2IV (P := Q)) := by unfold group2IV; infer_instance
instance : TableFollows ρ (group21B (P := P)) (group21B (P := Q)) := by unfold group21B; infer_instance
instance : TableFollows ρ (group21V (P := P)) (group21V (P := Q)) := by unfold group21V; infer_instance
instance : TableFollows ρ (group2ClB (P := P)) (group2ClB (P := Q)) := by unfold group2ClB; infer_instance
instance : TableFollows ρ (group2ClV (P := P)) (group2ClV (P := Q)) := by unfold group2ClV; infer_instance
instance : TableFollows ρ (group3B (P := P)) (group3B (P := Q)) := by unfold group3B; infer_instance
instance : TableFollows ρ (group3V (P := P)) (group3V (P := Q)) := by unfold group3V; infer_instance
instance : TableFollows ρ (group4 (P := P)) (group4 (P := Q)) := by unfold group4; infer_instance
instance : TableFollows ρ (group5 (P := P)) (group5 (P := Q)) := by unfold group5; infer_instance
instance : TableFollows ρ (group6 (P := P)) (group6 (P := Q)) := by unfold group6; infer_instance
instance : TableFollows ρ (group7 (P := P)) (group7 (P := Q)) := by unfold group7; infer_instance

set_option maxRecDepth 20000 in
instance : TableFollows ρ (opcodeTable2 (P := P)) (opcodeTable2 (P := Q)) := by
  unfold opcodeTable2
  infer_instance

instance (eip : Word) : Alongside ρ (twoByteEsc (P := P) eip) (twoByteEsc (P := Q) eip) := by
  unfold twoByteEsc
  infer_instance

/-! ### Prefixes -/

section Prefixes

variable {e : Helper P} {e' : Helper Q} [he : ∀ eip, Alongside ρ (e eip) (e' eip)] (eip : Word) (fuel : ℕ)

instance : Alongside ρ (operandSize e eip) (operandSize e' eip) := by
  unfold operandSize
  infer_instance

omit he in
instance (count : ℕ) : Alongside ρ (countUp (P := P) count) (countUp (P := Q) count) := by
  unfold countUp
  infer_instance

omit he in
instance (name count : ℕ) : Alongside ρ (printRep (P := P) name count) (printRep (P := Q) name count) := by
  unfold printRep
  infer_instance

instance (z : Bool) (count : ℕ) : Alongside ρ (repLoop e z eip fuel count) (repLoop e' z eip fuel count) := by
  induction fuel generalizing count with
  | zero =>
    unfold repLoop
    infer_instance
  | succ fuel ih =>
    unfold repLoop
    infer_instance

instance : Alongside ρ (rep e fuel eip) (rep e' fuel eip) := by
  unfold rep
  infer_instance

instance : Alongside ρ (repnz e fuel eip) (repnz e' fuel eip) := by
  unfold repnz
  infer_instance

set_option maxRecDepth 20000 in
instance : TableFollows ρ (opcodeTable e fuel) (opcodeTable e' fuel) := by
  unfold opcodeTable
  infer_instance

end Prefixes

end Tables

/-! ### The main loop -/

variable (fuel : ℕ)

/-- **Every instruction** does on the first bus what it does on the second. -/
theorem exec_follows (eip : Word) : Alongside ρ (exec (P := P) fuel eip) (exec (P := Q) fuel eip) := by
  induction fuel generalizing eip with
  | zero =>
    unfold exec
    infer_instance
  | succ fuel ih =>
    unfold exec
    infer_instance

instance execStep_follows : Alongside ρ (execStep (P := P) fuel) (execStep (P := Q) fuel) := by
  have hexec : ∀ eip, Alongside ρ (exec (P := P) fuel eip) (exec (P := Q) fuel eip) := exec_follows fuel
  unfold execStep
  infer_instance

instance checkIntr_follows : Alongside ρ (checkIntr (P := P)) (checkIntr (P := Q)) := by
  unfold checkIntr
  infer_instance

end Accesses

end Buses

end Nemu
