/-
# The entry of an interrupt

`raise_intr` pushes three words, takes the handler from a gate of the IDT, and
loads `cs` from the GDT. It puts the linear address of the handler into `eip`,
where `ljmp` puts the offset; the fetch adds the base of `cs` once more. So the
handler is entered if and only if this base is 0, or no base is added.

Key definitions: `GateDesc`, `setIntr`, `setTrap`, `SegmentDescriptor`, `CodeAt`,
`Vectored`.
Key theorems: `loadSreg_sim`, `raiseIntr_sim`, `vectored_iff`.
-/
import Nemu.Cpu.Guarded
import Nemu.Cpu.Simulate

namespace Nemu

open Bytes Cmd Instr WordMem

set_option synthInstance.maxSize 10000

/-! ### The kernel's descriptors -/

/-- The bytes of a field of 16 bits. -/
def half (v : BitVec 16) : List Byte := [v.setWidth 8, (v >>> 8).setWidth 8]

/-- `GateDesc`, with its bit fields. -/
structure GateDesc where
  offset15_0 : BitVec 16
  segment : BitVec 16
  pad0 : BitVec 8
  type : BitVec 4
  system : BitVec 1
  privilegeLevel : BitVec 2
  present : BitVec 1
  offset31_16 : BitVec 16

def GateDesc.bytes (g : GateDesc) : List Byte :=
  half g.offset15_0 ++ half g.segment ++ [g.pad0, g.present ++ g.privilegeLevel ++ g.system ++ g.type] ++
    half g.offset31_16

/-- The gate that `set_intr` and `set_trap` fill in, with their types. -/
def setGate (type : BitVec 4) (selector offset dpl : Word) : GateDesc where
  offset15_0 := (offset &&& 0xffff#32).setWidth 16
  segment := selector.setWidth 16
  pad0 := 0
  type := type
  system := 0
  privilegeLevel := dpl.setWidth 2
  present := 1
  offset31_16 := (offset >>> 16 &&& 0xffff#32).setWidth 16

/-- `set_intr`: an interrupt gate. -/
def setIntr (selector offset dpl : Word) : GateDesc := setGate 0xe selector offset dpl

/-- `set_trap`: a trap gate. -/
def setTrap (selector offset dpl : Word) : GateDesc := setGate 0xf selector offset dpl

/-- `SegDesc` of the kernel, with its bit fields. -/
structure SegmentDescriptor where
  limit15_0 : BitVec 16
  base15_0 : BitVec 16
  base23_16 : BitVec 8
  type : BitVec 4
  segmentType : BitVec 1
  privilegeLevel : BitVec 2
  present : BitVec 1
  limit19_16 : BitVec 4
  softUse : BitVec 1
  operationSize : BitVec 1
  pad0 : BitVec 1
  granularity : BitVec 1
  base31_24 : BitVec 8

def SegmentDescriptor.bytes (d : SegmentDescriptor) : List Byte :=
  half d.limit15_0 ++ half d.base15_0 ++
    [d.base23_16, d.present ++ d.privilegeLevel ++ d.segmentType ++ d.type,
      d.granularity ++ d.pad0 ++ d.operationSize ++ d.softUse ++ d.limit19_16, d.base31_24]

/-- Where the segment begins. -/
def SegmentDescriptor.base (d : SegmentDescriptor) : Word := d.base31_24 ++ d.base23_16 ++ d.base15_0

/-- The two halves of the offset. -/
theorem setGate_offset (type : BitVec 4) (selector offset dpl : Word) :
    (setGate type selector offset dpl).offset31_16.setWidth 32 <<< 16 |||
      (setGate type selector offset dpl).offset15_0.setWidth 32 = offset := by
  have hmask : ∀ i < 16, (0xffff#32).getLsbD i = true := by decide
  apply BitVec.eq_of_getLsbD_eq
  intro i hi
  by_cases h : i < 16
  · simp [setGate, h, hi, hmask i h]
  · simp [setGate, h, hi, hmask (i - 16) (by omega), show i - 16 < 16 by omega,
      show 16 + (i - 16) = i by omega]

/-! ### What is in memory -/

/-- These bytes are in memory from `a` on, outside `S`. -/
def CodeAt (S : Word → Prop) (f : Mem) (a : Word) (code : List Byte) : Prop :=
  ∀ i < code.length, f (a + BitVec.ofNat 32 i) = code.getD i 0 ∧ ¬ S (a + BitVec.ofNat 32 i)

instance {S : Word → Prop} [DecidablePred S] {f : Mem} {a : Word} {code : List Byte} :
    Decidable (CodeAt S f a code) := inferInstanceAs (Decidable (∀ i < code.length, _ ∧ _))

namespace CodeAt

variable {S : Word → Prop} {f g : Mem} {a v : Word} {k : Byte} {code code' : List Byte}

theorem left (h : CodeAt S f a (code ++ code')) : CodeAt S f a code := by
  intro i hi
  have hi' := h i (by rw [List.length_append]; omega)
  rwa [List.getD_append _ _ _ _ hi] at hi'

theorem right (h : CodeAt S f a (code ++ code')) :
    CodeAt S f (a + BitVec.ofNat 32 code.length) code' := by
  intro i hi
  have hi' := h (code.length + i) (by rw [List.length_append]; omega)
  rwa [List.getD_append_right _ _ _ _ (Nat.le_add_right _ _), Nat.add_sub_cancel_left,
    BitVec.ofNat_add, ← BitVec.add_assoc] at hi'

theorem head (h : CodeAt S f a (k :: code)) : f a = k := by
  have hk := (h 0 (Nat.succ_pos _)).1
  rwa [BitVec.add_zero] at hk

theorem tail (h : CodeAt S f a (k :: code)) : CodeAt S f (a + 1) code := by
  have hsplit : CodeAt S f a ([k] ++ code) := h
  exact hsplit.right

/-- Memory that is the same there. -/
theorem congr (h : CodeAt S f a code) (hfg : ∀ x, ¬ S x → g x = f x) : CodeAt S g a code :=
  fun i hi => ⟨(hfg _ (h i hi).2).trans (h i hi).1, (h i hi).2⟩

theorem peek_one (h : CodeAt S f a [k]) : peek f a 1 = k.setWidth 32 := by
  rw [Nemu.peek_one, h.head]

theorem peek_immediate (h : CodeAt S f a (immediate v)) : peek f a 4 = v := by
  refine Eq.trans (word_congr fun i hi => ?_) (word_byte v)
  rw [(h i hi).1]
  interval_cases i <;> rfl

theorem peek_half {v : BitVec 16} (h : CodeAt S f a (half v)) : peek f a 2 = v.setWidth 32 := by
  apply ext_bytes
  intro i hi
  rw [peek, byte_word _ _ _ hi]
  apply BitVec.eq_of_getLsbD_eq
  intro j hj
  rw [getLsbD_byte]
  by_cases h2 : i < 2
  · rw [if_pos h2, (h i h2).1]
    interval_cases i <;> simp [half, hj, show 8 + j < 32 by omega, show j < 32 by omega]
  · rw [if_neg h2]
    simp [hj, show 16 ≤ 8 * i + j by omega]

end CodeAt

/-- Where the gate of a vector is. -/
def CpuState.gate (c : CpuState) (no : Byte) : Word := c.idtr.base + 8 * no.setWidth 32

/-- Where the descriptor of a selector is. -/
def CpuState.descriptor (c : CpuState) (selector : BitVec 16) : Word := c.gdtr.base + 8 * segIndex selector

/-- What a segment register is loaded with, from a descriptor. -/
def SegDesc.load (f : Mem) (a : Word) : SegDesc where
  base15_0 := (peek f (a + 2) 2).setWidth 16
  base23_16 := (peek f (a + 4) 1).setWidth 8
  base31_24 := (peek f (a + 7) 1).setWidth 8
  limit15_0 := (peek f a 2).setWidth 16
  limit19_16 := (peek f (a + 6) 1 &&& 0xf).setWidth 4

/-- What is loaded has the base of the descriptor. -/
theorem base_load {S : Word → Prop} {f : Mem} {a : Word} {d : SegmentDescriptor} (h : CodeAt S f a d.bytes) :
    (SegDesc.load f a).base = d.base := by
  have h15 : peek f (a + 2) 2 = d.base15_0.setWidth 32 := h.left.right.peek_half
  have h23 : f (a + 4) = d.base23_16 := (h 4 (show 4 < 8 by decide)).1
  have h31 : f (a + 7) = d.base31_24 := (h 7 (show 7 < 8 by decide)).1
  apply BitVec.eq_of_getLsbD_eq
  intro i hi
  unfold SegDesc.base SegDesc.load SegmentDescriptor.base
  rw [h15, peek_one, peek_one, h23, h31, BitVec.getLsbD_append, BitVec.getLsbD_append]
  simp only [BitVec.getLsbD_or, BitVec.getLsbD_shiftLeft, BitVec.getLsbD_setWidth]
  by_cases h16 : i < 16
  · simp [h16, hi, show i < 24 by omega]
  · have hlow : d.base15_0.getLsbD i = false := BitVec.getLsbD_of_ge _ _ (by omega)
    by_cases h24 : i < 24
    · simp [h16, h24, hi, hlow, show i - 16 < 8 by omega, show i - 16 < 32 by omega]
    · have hmid : d.base23_16.getLsbD (i - 16) = false := BitVec.getLsbD_of_ge _ _ (by omega)
      simp [h16, h24, hi, hlow, hmid, show ¬ i - 16 < 8 by omega, show i - 24 < 8 by omega,
        show i - 24 < 32 by omega, show i - 16 - 8 = i - 24 by omega]

/-- The handler of a gate. -/
theorem peek_gate {S : Word → Prop} {f : Mem} {a : Word} {type : BitVec 4} {selector offset dpl : Word}
    (h : CodeAt S f a (setGate type selector offset dpl).bytes) :
    (peek f (a + 2) 2).setWidth 16 = selector.setWidth 16 ∧
      peek f (a + 6) 2 <<< 16 ||| peek f a 2 = offset := by
  have hlow : peek f a 2 = (setGate type selector offset dpl).offset15_0.setWidth 32 := h.left.left.left.peek_half
  have hsel : peek f (a + 2) 2 = (setGate type selector offset dpl).segment.setWidth 32 :=
    h.left.left.right.peek_half
  have hhigh : peek f (a + 6) 2 = (setGate type selector offset dpl).offset31_16.setWidth 32 :=
    h.right.peek_half
  refine ⟨?_, by rw [hlow, hhigh, setGate_offset]⟩
  rw [hsel]
  exact BitVec.setWidth_setWidth_of_le _ (by decide)

/-! ### The processor on the way -/

namespace CpuState

variable (c : CpuState)

/-- The processor with this stack pointer, at this instruction. -/
def moved (esp eip : Word) : CpuState := { c with gpr := Function.update c.gpr rESP esp, eip := eip }

/-- The processor with this `cs`. -/
def withCs (selector : BitVec 16) (cache : SegDesc) : CpuState :=
  { c with sreg := Function.update c.sreg 1 ⟨selector, cache⟩ }

/-- The three words that `raise_intr` pushes. -/
def intrWords : List Word := [c.eflags, (c.sreg 1).selector.setWidth 32, c.eip]

/-- The top of the stack behind them, and memory. -/
def framed (f : Mem) : Word × Mem := pushWords (c.linear (c.gpr rESP) 2, f) c.intrWords

/-- The processor and memory after `raise_intr`. -/
def vectored (f : Mem) (no : Byte) : CpuState × Mem :=
  let g := (c.framed f).2
  let selector := (peek g (c.gate no + 2) 2).setWidth 16
  let cache := SegDesc.load g (c.descriptor selector)
  ((c.withCs selector cache).moved (c.gpr rESP - 12)
    (cache.base + (peek g (c.gate no + 6) 2 <<< 16 ||| peek g (c.gate no) 2)), g)

variable {c} {esp eip : Word}

theorem moved_self : c.moved (c.gpr rESP) c.eip = c := by
  unfold moved
  rw [Function.update_eq_self]

theorem moved_setReg {a eip : Word} (v : Word) : (c.moved a eip).setReg .l rESP v = c.moved v eip := by
  have hset : (c.moved a eip).setReg .l rESP v =
      { c with gpr := Function.update (Function.update c.gpr rESP a) rESP v, eip := eip } := rfl
  rw [hset, Function.update_idem]
  rfl

theorem reg_moved : (c.moved esp eip).reg .l rESP = esp := by
  have hreg : (c.moved esp eip).reg .l rESP = Function.update c.gpr rESP esp rESP := rfl
  rw [hreg, Function.update_self]

theorem sreg_withCs {selector : BitVec 16} {cache : SegDesc} :
    ((c.withCs selector cache).moved esp eip).sreg 1 = ⟨selector, cache⟩ := by
  have hsreg : ((c.withCs selector cache).moved esp eip).sreg 1 =
      Function.update c.sreg 1 ⟨selector, cache⟩ 1 := rfl
  rw [hsreg, Function.update_self]

theorem linear_sub (a b : Word) (i : Fin 6) : c.linear (a - b) i = c.linear a i - b := by
  have h := c.linear_add a (-b) i
  rwa [BitVec.add_comm, ← BitVec.sub_eq_add_neg, ← BitVec.sub_eq_add_neg] at h

/-- The stack behind the frame. -/
theorem framed_top (f : Mem) : (c.framed f).1 = c.linear (c.gpr rESP - 12) 2 := by
  rw [framed, pushWords_top, linear_sub]
  rfl

theorem framed_stack (f : Mem) : StackIs (c.framed f).2 (c.framed f).1
    [c.eip, (c.sreg 1).selector.setWidth 32, c.eflags] :=
  pushWords_stack c.intrWords trivial (show 4 * (3 + 0) ≤ 2 ^ 32 by decide)

theorem framed_out {f : Mem} {x : Word} (hx : ¬ In (c.linear (c.gpr rESP) 2 - 12) 12 x) :
    (c.framed f).2 x = f x :=
  pushWords_out (show 4 * 3 ≤ 2 ^ 32 by decide) hx

end CpuState

section Entry

variable {P : Type} [Bus P] [Ram P] {E : Failure → Prop} [hE : Accesses P E]
  {fs : List Flag} {b : Bool} {c : CpuState} {f : Mem} {t : Word × Mem} {esp ip : Word} {m : Machine P}

/-- A push of `raise_intr`. -/
theorem pushIntr_sim (h : Sim fs b (c.moved esp ip, t.2) m) (ht : c.linear esp 2 = t.1) (v : Word) :
    Returns (fun _ m' => Sim fs b (c.moved (esp - 4) ip, (pushWord t v).2) m' ∧
        c.linear (esp - 4) 2 = (pushWord t v).1 ∧ m'.reg .l rESP = esp - 4)
      (swaddrWrite (esp - 4) 4 v 2 (m.setReg .l rESP (esp - 4))) E := by
  have hset := h.setReg .l rESP (esp - 4)
  rw [CpuState.moved_setReg] at hset
  have htop : c.linear (esp - 4) 2 = t.1 - 4 := by rw [CpuState.linear_sub, ht]
  refine (swaddrWrite_sim hset (by decide) (by decide) (esp - 4) v).mono fun _ m' hwrite => ?_
  have hmem : (c.moved (esp - 4) ip).linear (esp - 4) 2 = t.1 - 4 := htop
  obtain ⟨hsim, -⟩ := hwrite
  refine ⟨?_, htop, (hsim.reg .l rESP).trans CpuState.reg_moved⟩
  rw [pushWord, ← hmem]
  exact hsim

theorem intrFrame_sim (no : Byte) (h : Sim [] b (c, f) m) :
    Returns (fun r m' => Sim [] b (c.moved (c.gpr rESP - 12) c.eip, (c.framed f).2) m' ∧
      r = (c.gate no, peek (c.framed f).2 (c.gate no + 2) 2)) (intrFrame no m) E := by
  have hm : Sim [] b (c.moved (c.gpr rESP) c.eip, f) m := by rwa [CpuState.moved_self]
  unfold intrFrame
  rw [read_bind_run, show m.reg .l rESP = c.gpr rESP from h.reg .l rESP, write_bind_run, read_bind_run]
  have heflags : (m.setReg .l rESP (c.gpr rESP - 4)).cpu.eflags = c.eflags := calc
    (m.setReg .l rESP (c.gpr rESP - 4)).cpu.eflags = m.cpu.eflags := rfl
    _ = c.eflags := by rw [h.cpu_eq]
  rw [heflags]
  refine (pushIntr_sim (t := (c.linear (c.gpr rESP) 2, f)) hm rfl c.eflags).bind fun _ m₁ h₁ => ?_
  obtain ⟨h₁, htop₁, -⟩ := h₁
  rw [write_bind_run, read_bind_run]
  have hcs : ((m₁.setReg .l rESP (c.gpr rESP - 4 - 4)).cpu.sreg 1).selector = (c.sreg 1).selector := calc
    ((m₁.setReg .l rESP (c.gpr rESP - 4 - 4)).cpu.sreg 1).selector = (m₁.cpu.sreg 1).selector := rfl
    _ = (c.sreg 1).selector := by rw [h₁.cpu_eq]; rfl
  rw [hcs]
  refine (pushIntr_sim h₁ htop₁ _).bind fun _ m₂ h₂ => ?_
  obtain ⟨h₂, htop₂, -⟩ := h₂
  rw [write_bind_run, read_bind_run]
  have heip : (m₂.setReg .l rESP (c.gpr rESP - 4 - 4 - 4)).eip = c.eip := calc
    (m₂.setReg .l rESP (c.gpr rESP - 4 - 4 - 4)).eip = m₂.cpu.eip := rfl
    _ = c.eip := by rw [h₂.cpu_eq]; rfl
  rw [heip]
  refine (pushIntr_sim h₂ htop₂ _).bind fun _ m₃ h₃ => ?_
  obtain ⟨h₃, -, -⟩ := h₃
  rw [read_bind_run]
  have hidt : m₃.cpu.idtr.base + 8 * no.setWidth 32 = c.gate no := by
    rw [h₃.cpu_eq]
    rfl
  rw [hidt]
  have hesp : c.gpr rESP - 4 - 4 - 4 = c.gpr rESP - 12 := by bv_omega
  rw [hesp] at h₃
  refine (lnaddrRead_sim h₃ (by decide) _).bind fun v m₄ h₄ => ?_
  exact ⟨h₄.1, by rw [h₄.2]; rfl⟩

/-- **A segment register** is loaded from its descriptor. -/
theorem loadSreg_sim {i : Fin 6} {sel : BitVec 16} (h : Sim fs b (c, f) m) :
    Returns (fun _ => Sim fs b
        ({ c with sreg := Function.update c.sreg i ⟨sel, .load f (c.descriptor sel)⟩ }, f))
      (loadSreg i sel m) E := by
  unfold loadSreg
  rw [write_bind_run, read_bind_run]
  have hsel : Sim fs b ({ c with sreg := Function.update c.sreg i { m.cpu.sreg i with selector := sel } }, f)
      (m.setSelector i sel) := h.setSreg i _
  have hdesc : (m.setSelector i sel).cpu.gdtr.base + 8 * segIndex sel = c.descriptor sel := by
    rw [hsel.cpu]
    rfl
  rw [hdesc]
  refine (lnaddrRead_sim hsel (by decide) _).bind fun v₁ m₁ h₁ => ?_
  refine (lnaddrRead_sim h₁.1 (by decide) _).bind fun v₂ m₂ h₂ => ?_
  refine (lnaddrRead_sim h₂.1 (by decide) _).bind fun v₃ m₃ h₃ => ?_
  refine (lnaddrRead_sim h₃.1 (by decide) _).bind fun v₄ m₄ h₄ => ?_
  refine (lnaddrRead_sim h₄.1 (by decide) _).bind fun v₅ m₅ h₅ => ?_
  have hdone := h₅.1.setSreg i
    ⟨sel, ⟨v₁.setWidth 16, v₂.setWidth 8, v₃.setWidth 8, v₄.setWidth 16, (v₅ &&& 0xf).setWidth 4⟩⟩
  simp only [Function.update_idem] at hdone
  rw [h₁.2, h₂.2, h₃.2, h₄.2, h₅.2] at hdone ⊢
  exact hdone

theorem intrTarget_sim {gate : Word} (h : Sim fs b (c, f) m) :
    Returns (fun _ => Sim fs b
        ({ c with eip := (c.sreg 1).cache.base + (peek f (gate + 6) 2 <<< 16 ||| peek f gate 2) }, f))
      (intrTarget gate m) E := by
  unfold intrTarget
  rw [read_bind_run]
  refine (lnaddrRead_sim h (by decide) _).bind fun v₁ m₁ h₁ => ?_
  refine (lnaddrRead_sim h₁.1 (by decide) _).bind fun v₂ m₂ h₂ => ?_
  have hcs : (m.cpu.sreg 1).cache.base = (c.sreg 1).cache.base := by rw [h.cpu]
  have hdone := h₂.1.setEip ((c.sreg 1).cache.base + (peek f (gate + 6) 2 <<< 16 ||| peek f gate 2))
  have hv : ∀ a, Width.trunc .w (peek f a 2) = peek f a 2 := fun a => trunc_peek .w f a
  rw [h₁.2, h₂.2, hcs]
  dsimp only
  rw [hv, hv]
  exact hdone

/-- **`raise_intr`**, up to its jump. -/
theorem raiseIntr_sim (no : Byte) (h : Sim [] b (c, f) m) :
    Returns (fun _ => Sim [] b (c.vectored f no)) (setjmp (raiseIntr no) m) E := by
  rw [raiseIntr_eq]
  refine Returns.setjmp ?_
  refine (intrFrame_sim no h).bind fun r m₁ h₁ => ?_
  obtain ⟨h₁, rfl⟩ := h₁
  refine (loadSreg_sim h₁).bind fun _ m₂ h₂ => ?_
  refine (intrTarget_sim h₂).mono fun _ m₃ h₃ => ?_
  dsimp only at h₃
  rw [Function.update_self] at h₃
  exact h₃

omit hE in
/-- What it leaves on the stack. -/
theorem vectored_stack {no : Byte} (h : Sim [] b (c.vectored f no) m) :
    StackIs m.mem (m.cpu.linear (m.reg .l rESP) 2) [c.eip, (c.sreg 1).selector.setWidth 32, c.eflags] := by
  have hcpu : m.cpu = (c.vectored f no).1 := h.cpu_eq
  have hesp : m.reg .l rESP = c.gpr rESP - 12 := by
    rw [Machine.reg, hcpu]
    exact CpuState.reg_moved
  have hss : m.cpu.linear (c.gpr rESP - 12) 2 = (c.framed f).1 := by
    rw [hcpu, CpuState.framed_top]
    rfl
  rw [hesp, hss, show m.mem = (c.framed f).2 from h.mem]
  exact CpuState.framed_stack f

/-! ### The handler that is entered -/

/-- After `raise_intr` in `m`, the next fetch is from `target`, with this selector
in `cs`, and what it interrupted is on the stack. -/
structure Vectored (m : Machine P) (target : Word) (selector : BitVec 16) (m' : Machine P) : Prop where
  fetch : segTranslate m'.eip 1 m' = .ok target m'
  cs : (m'.cpu.sreg 1).selector = selector
  stack : StackIs m'.mem (m'.cpu.linear (m'.reg .l rESP) 2)
    [m.eip, (m.cpu.sreg 1).selector.setWidth 32, m.cpu.eflags]

/-- **An interrupt enters its handler** if and only if the code segment begins at
address 0, or segments are off: `eip` is the linear address of the handler, and
the fetch adds the base again. -/
theorem vectored_iff {gate : GateDesc} {desc : SegmentDescriptor} {selector offset dpl : Word}
    (no : Byte) (m : Machine P)
    (hgate : gate = setIntr selector offset dpl ∨ gate = setTrap selector offset dpl)
    (hidt : CodeAt (In (m.cpu.linear (m.reg .l rESP) 2 - 12) 12) m.mem (m.cpu.gate no) gate.bytes)
    (hgdt : CodeAt (In (m.cpu.linear (m.reg .l rESP) 2 - 12) 12) m.mem
      (m.cpu.descriptor (selector.setWidth 16)) desc.bytes) :
    Returns (fun _ m' => Vectored m (desc.base + offset) (selector.setWidth 16) m' ↔
      m.cpu.protectEnable = false ∨ desc.base = 0) (setjmp (raiseIntr no) m) E := by
  have h : Sim [] m.ops.isOperandSize16 (m.cpu, m.mem) m := ⟨rfl, Only.refl _ _, rfl, rfl⟩
  refine (raiseIntr_sim no h).mono fun _ m' h' => ?_
  obtain ⟨type, rfl⟩ : ∃ type, gate = setGate type selector offset dpl := by
    rcases hgate with rfl | rfl
    · exact ⟨0xe, rfl⟩
    · exact ⟨0xf, rfl⟩
  have hkept : ∀ x, ¬ In (m.cpu.linear (m.reg .l rESP) 2 - 12) 12 x → (m.cpu.framed m.mem).2 x = m.mem x :=
    fun x hx => CpuState.framed_out hx
  obtain ⟨hsel, hoffset⟩ := peek_gate (hidt.congr hkept)
  have hbase := base_load (hgdt.congr hkept)
  have hcpu : m'.cpu = (m.cpu.vectored m.mem no).1 := h'.cpu_eq
  have hcs : m'.cpu.sreg 1 =
      ⟨selector.setWidth 16, .load (m.cpu.framed m.mem).2 (m.cpu.descriptor (selector.setWidth 16))⟩ := by
    rw [hcpu, ← hsel]
    exact CpuState.sreg_withCs
  have heip : m'.eip = desc.base + offset := by
    rw [← hbase, ← hoffset, ← hsel]
    exact congrArg CpuState.eip hcpu
  have hpe : m'.cpu.protectEnable = m.cpu.protectEnable := by
    rw [hcpu]
    rfl
  have hfetch : segTranslate m'.eip 1 m' = .ok (m'.cpu.linear m'.eip 1) m' := rfl
  have hlinear : m'.cpu.linear m'.eip 1 =
      if m.cpu.protectEnable then desc.base + offset + desc.base else desc.base + offset := by
    unfold CpuState.linear
    rw [hpe, hcs, heip, hbase]
  constructor
  · intro hvectored
    have htarget := (Outcome.ok.inj (hfetch.symm.trans hvectored.fetch)).1
    rw [hlinear] at htarget
    cases hp : m.cpu.protectEnable with
    | false => exact .inl rfl
    | true =>
      rw [hp, if_pos rfl] at htarget
      exact .inr (by bv_omega)
  · intro hcond
    refine ⟨?_, by rw [hcs], vectored_stack h'⟩
    rw [hfetch, hlinear]
    rcases hcond with hp | hzero
    · rw [hp, if_neg Bool.false_ne_true]
    · rw [hzero, show 0 + offset + 0 = 0 + offset from BitVec.add_zero _, ite_self]

end Entry

/-- A code segment that begins at `base`. -/
def codeSegment (base : Word) : SegmentDescriptor where
  limit15_0 := 0xffff
  base15_0 := base.setWidth 16
  base23_16 := (base >>> 16).setWidth 8
  type := 0xa
  segmentType := 1
  privilegeLevel := 0
  present := 1
  limit19_16 := 0xf
  softUse := 0
  operationSize := 0
  pad0 := 1
  granularity := 1
  base31_24 := (base >>> 24).setWidth 8

/-- The gate of vector 1 at 8, the code segment of selector 8 at 0x18. -/
def vectorMachine (base : Word) : Machine FlatBus :=
  let m := flatMachine (fun _ => 0x100) (List.replicate 8 0 ++ (setIntr 8 0x40 0).bytes ++
    List.replicate 8 0 ++ (codeSegment base).bytes)
  { m with cpu := { m.cpu with gdtr := ⟨0x17, 0x10⟩, cr0 := 1 } }

theorem vectored_iff_flat : ∃ m', setjmp (raiseIntr 1) (vectorMachine 0) = .ok () m' ∧
    Vectored (vectorMachine 0) 0x40 8 m' := by
  generalize hm : vectorMachine 0 = m
  have hgate : setIntr 8 0x40 0 = setIntr 8 0x40 0 ∨ setIntr 8 0x40 0 = setTrap 8 0x40 0 := .inl rfl
  have hgdt : CodeAt (In (m.cpu.linear (m.reg .l rESP) 2 - 12) 12) m.mem (m.cpu.descriptor 8)
      (codeSegment 0).bytes := by subst hm; decide +kernel
  have hrun := vectored_iff (E := fun _ => False) 1 m hgate (by subst hm; decide +kernel) hgdt
  obtain ⟨_, m', hrun, hiff⟩ := hrun.exists_ok
  exact ⟨m', hrun, hiff.mpr (.inr (by decide))⟩

/-- With a segment at 0x10000 the handler at 0x10040 is not entered. -/
theorem vectored_wrong : ∃ m', setjmp (raiseIntr 1) (vectorMachine 0x10000) = .ok () m' ∧
    segTranslate m'.eip 1 m' = .ok 0x20040 m' ∧ ¬ Vectored (vectorMachine 0x10000) 0x10040 8 m' := by
  have hrun := ok_stateD (show value (setjmp (raiseIntr 1) (vectorMachine 0x10000)) = some () by decide +kernel)
    (vectorMachine 0)
  have hlinear : (stateD (vectorMachine 0) (setjmp (raiseIntr 1) (vectorMachine 0x10000))).cpu.linear
      (stateD (vectorMachine 0) (setjmp (raiseIntr 1) (vectorMachine 0x10000))).eip 1 = 0x20040 := by
    decide +kernel
  generalize stateD (vectorMachine 0) (setjmp (raiseIntr 1) (vectorMachine 0x10000)) = m' at hrun hlinear
  have hfetch : segTranslate m'.eip 1 m' = .ok 0x20040 m' := hlinear ▸ rfl
  refine ⟨m', hrun, hfetch, fun h => ?_⟩
  have htarget := (Outcome.ok.inj (hfetch.symm.trans h.fetch)).1
  exact absurd htarget (by decide)

end Nemu
