/-
# Repeated string instructions

`movs`, `stos`, `lods` and `scas` do one step on the element at `edi` or `esi`
(`StringOp.element`). Under `rep` and `repnz` the step is done and `ecx`
decremented as long as `ecx` is not zero, and `scas` ends the loop with the
first element that differs from the accumulator, or equals it.

What is written must not be the instruction itself, which is fetched again for
each element. The rounds are counted in an `int`, and the count is put behind the
text in `assembly`, which grows each time that no round is done (`RepFits`).

Key definitions: `StringOp.element`, `StringOp.round`, `StringOp.hit`, `Repeated`, `RepFits`.
Key theorems: `StringOp.exec_sim`, `repLoop_sim`, `rep_string_iff`.
-/
import Nemu.Cpu.Simulate
import Nemu.Lib.Repeat
import Mathlib.Data.List.Basic

namespace Nemu

open Bytes Cmd Instr WordMem Repeat

/-! ### The step on one element -/

inductive StringOp where
  | movs | stos | lods | scas
  deriving DecidableEq

/-- How far an index register moves. -/
def CpuState.stride (c : CpuState) (d : Width) : Word := if c.flag .DF then -d.len else d.len

/-- An index register moves by one element. -/
def CpuState.moveIndex (c : CpuState) (d : Width) (i : Fin 8) : CpuState :=
  c.setReg .l i (c.reg .l i + c.stride d)

namespace StringOp

/-- The processor and memory after one element. -/
def element (op : StringOp) (d : Width) (s : CpuState × Mem) : CpuState × Mem :=
  let source := peek s.2 (s.1.linear (s.1.reg .l rESI) 3) d.bytes
  let dest := s.1.linear (s.1.reg .l rEDI) 0
  match op with
  | movs => ((s.1.moveIndex d rEDI).moveIndex d rESI, poke s.2 dest d.bytes source)
  | stos => (s.1.moveIndex d rEDI, poke s.2 dest d.bytes (s.1.reg d rEAX))
  | lods => ((s.1.setReg d rEAX source).moveIndex d rESI, s.2)
  | scas => ((s.1.setFlag .ZF (s.1.reg d rEAX == peek s.2 dest d.bytes)).moveIndex d rEDI, s.2)

/-- One round of a repetition. -/
def round (op : StringOp) (d : Width) (s : CpuState × Mem) : CpuState × Mem :=
  let t := op.element d s
  (t.1.setReg .l rECX (t.1.reg .l rECX - 1), t.2)

/-- The round is the last: `z` is the value of `ZF` that `scas` is repeated for. -/
def hit (op : StringOp) (d : Width) (z : Bool) (s : CpuState × Mem) : Bool :=
  op == scas && (op.round d s).1.flag .ZF == z

/-- The flags that the instruction sets besides `ZF`. -/
def flags : StringOp → List Flag
  | movs | stos | lods => []
  | scas => [.CF, .PF, .SF, .OF]

/-- The opcode, at 8 bits and else. -/
def opcode (op : StringOp) (d : Width) : Byte :=
  let first : Byte := match op with
    | movs => 0xa4
    | stos => 0xaa
    | lods => 0xac
    | scas => 0xae
  if d = .b then first else first + 1

/-- The prefix. -/
def repByte (z : Bool) : Byte := if z then 0xf2 else 0xf3

/-- The bytes for one element when the operand size is set, or not. -/
def bare (op : StringOp) (d : Width) (b : Bool) : List Byte :=
  if d = .w ∧ b = false then [0x66, op.opcode d] else [op.opcode d]

/-- The bytes of the repeated instruction: the two prefixes come in either order. -/
def encodings (op : StringOp) (d : Width) (z : Bool) : List (List Byte) :=
  if d = .w then [[0x66, repByte z, op.opcode d], [repByte z, 0x66, op.opcode d]]
  else [[repByte z, op.opcode d]]

section

variable {P : Type} [Bus P]

def exec (d : Width) : StringOp → Cmd (Machine P) Unit
  | movs => doMovs d
  | stos => doStos d
  | lods => doLods d
  | scas => doScas d

end

end StringOp

/-! ### What a step leaves -/

namespace CpuState

variable (c : CpuState) (d : Width)

@[simp] theorem stride_setReg (d' : Width) (i : Fin 8) (v : Word) : (c.setReg d' i v).stride d = c.stride d := by
  cases d' <;> rfl

@[simp] theorem stride_setFlag {f : Flag} (hf : f ≠ .DF) (v : Bool) : (c.setFlag f v).stride d = c.stride d := by
  rw [stride, flag_setFlag, if_neg hf.symm, stride]

@[simp] theorem reg_setFlag (f : Flag) (v : Bool) (i : Fin 8) : (c.setFlag f v).reg d i = c.reg d i := by
  cases d <;> rfl

@[simp] theorem linear_setFlag (f : Flag) (v : Bool) (addr : Word) (i : Fin 6) :
    (c.setFlag f v).linear addr i = c.linear addr i := rfl

@[simp] theorem flag_setReg (d' : Width) (i : Fin 8) (v : Word) (f : Flag) :
    (c.setReg d' i v).flag f = c.flag f := by
  cases d' <;> rfl

theorem reg_setReg_eax {j : Fin 8} (hj : j ≠ rEAX) (v : Word) :
    (c.setReg d rEAX v).reg .l j = c.reg .l j := by
  cases d <;> exact Function.update_of_ne hj _ _

theorem reg_moveIndex_self (i : Fin 8) : (c.moveIndex d i).reg .l i = c.reg .l i + c.stride d :=
  c.reg_setReg .l i _

theorem reg_moveIndex_ne {i j : Fin 8} (h : j ≠ i) : (c.moveIndex d i).reg .l j = c.reg .l j :=
  c.reg_setReg_ne h _

@[simp] theorem stride_moveIndex (i : Fin 8) : (c.moveIndex d i).stride d = c.stride d :=
  c.stride_setReg d .l i _

@[simp] theorem linear_moveIndex (i : Fin 8) (addr : Word) (k : Fin 6) :
    (c.moveIndex d i).linear addr k = c.linear addr k :=
  c.linear_setReg .l i _ addr k

end CpuState

namespace StringOp

variable (op : StringOp) (d : Width) (s : CpuState × Mem)

theorem element_ecx : (op.element d s).1.reg .l rECX = s.1.reg .l rECX := by
  cases op with
  | movs =>
    rw [element, CpuState.reg_moveIndex_ne _ _ (by decide), CpuState.reg_moveIndex_ne _ _ (by decide)]
  | stos => rw [element, CpuState.reg_moveIndex_ne _ _ (by decide)]
  | lods => rw [element, CpuState.reg_moveIndex_ne _ _ (by decide), CpuState.reg_setReg_eax _ _ (by decide)]
  | scas => rw [element, CpuState.reg_moveIndex_ne _ _ (by decide), CpuState.reg_setFlag]

@[simp] theorem element_stride : (op.element d s).1.stride d = s.1.stride d := by
  cases op <;> simp [element]

@[simp] theorem element_linear (addr : Word) (i : Fin 6) :
    (op.element d s).1.linear addr i = s.1.linear addr i := by
  cases op <;> simp [element]

/-- `lods` moves `esi`, `stos` and `scas` move `edi`, and `movs` both. -/
theorem element_edi : (op.element d s).1.reg .l rEDI =
    if op = lods then s.1.reg .l rEDI else s.1.reg .l rEDI + s.1.stride d := by
  cases op with
  | movs => simp [element, CpuState.reg_moveIndex_ne, CpuState.reg_moveIndex_self, show rEDI ≠ rESI by decide]
  | stos => simp [element, CpuState.reg_moveIndex_self]
  | lods =>
    simp [element, CpuState.reg_moveIndex_ne, CpuState.reg_setReg_eax, show rEDI ≠ rESI by decide,
      show rEDI ≠ rEAX by decide]
  | scas => simp [element, CpuState.reg_moveIndex_self]

/-- The instruction writes to memory. -/
def writes : StringOp → Bool
  | movs | stos => true
  | lods | scas => false

/-- Memory changes at the destination only. -/
theorem element_mem {x : Word}
    (hx : op.writes = true → ¬ In (s.1.linear (s.1.reg .l rEDI) 0) d.bytes x) :
    (op.element d s).2 x = s.2 x := by
  cases op with
  | movs => exact poke_out (hx rfl)
  | stos => exact poke_out (hx rfl)
  | lods => rfl
  | scas => rfl

/-! ### Rounds -/

theorem round_ecx : (op.round d s).1.reg .l rECX = s.1.reg .l rECX - 1 := by
  have hecx : (op.round d s).1.reg .l rECX = (op.element d s).1.reg .l rECX - 1 :=
    CpuState.reg_setReg _ .l rECX _
  rw [hecx, element_ecx]

theorem round_edi : (op.round d s).1.reg .l rEDI = (op.element d s).1.reg .l rEDI :=
  (op.element d s).1.reg_setReg_ne (d := .l) (show rEDI ≠ rECX by decide) _

theorem round_stride : (op.round d s).1.stride d = s.1.stride d :=
  (CpuState.stride_setReg _ d .l rECX _).trans (op.element_stride d s)

theorem round_linear (addr : Word) (i : Fin 6) : (op.round d s).1.linear addr i = s.1.linear addr i :=
  (CpuState.linear_setReg _ .l rECX _ addr i).trans (op.element_linear d s addr i)

theorem rounds_ecx (n : ℕ) : ((op.round d)^[n] s).1.reg .l rECX = s.1.reg .l rECX - BitVec.ofNat 32 n := by
  induction n with
  | zero => rw [Function.iterate_zero_apply, BitVec.sub_zero]
  | succ n ih =>
    rw [Function.iterate_succ_apply', round_ecx, ih, BitVec.ofNat_add, BitVec.sub_sub]
    rfl

theorem rounds_stride (n : ℕ) : ((op.round d)^[n] s).1.stride d = s.1.stride d := by
  induction n with
  | zero => rfl
  | succ n ih => rw [Function.iterate_succ_apply', round_stride, ih]

theorem rounds_linear (n : ℕ) (addr : Word) (i : Fin 6) :
    ((op.round d)^[n] s).1.linear addr i = s.1.linear addr i := by
  induction n with
  | zero => rfl
  | succ n ih => rw [Function.iterate_succ_apply', round_linear, ih]

/-- Each round moves the destination by the same stride. -/
theorem rounds_edi (hop : op ≠ lods) (n : ℕ) : ((op.round d)^[n] s).1.reg .l rEDI =
    s.1.reg .l rEDI + BitVec.ofNat 32 n * s.1.stride d := by
  induction n with
  | zero => rw [Function.iterate_zero_apply, BitVec.zero_mul, BitVec.add_zero]
  | succ n ih =>
    rw [Function.iterate_succ_apply', round_edi, element_edi, if_neg hop, ih, rounds_stride, BitVec.ofNat_add,
      BitVec.add_mul, BitVec.one_mul, BitVec.add_assoc]

/-! ### What `scas` looks for -/

/-- Element `i` of the string at `edi` equals the accumulator. -/
def equalAt (d : Width) (s : CpuState × Mem) (i : ℕ) : Bool :=
  s.1.reg d rEAX ==
    peek s.2 (s.1.linear (s.1.reg .l rEDI + BitVec.ofNat 32 i * s.1.stride d) 0) d.bytes

theorem reg_eax_setReg (c : CpuState) (d : Width) {i : Fin 8} (hi : i ≠ rEAX) (v : Word) :
    (c.setReg .l i v).reg d rEAX = c.reg d rEAX := by
  have hgpr : (c.setReg .l i v).gpr rEAX = c.gpr rEAX := Function.update_of_ne hi.symm _ _
  cases d with
  | b => exact congrArg (fun x : Word => Width.trunc .b (x >>> (8 * (rEAX.val / 4)))) hgpr
  | w => exact congrArg (Width.trunc .w) hgpr
  | l => exact hgpr

/-- `scas` reads only. -/
theorem scas_rounds (n : ℕ) : ((scas.round d)^[n] s).2 = s.2 ∧
    ((scas.round d)^[n] s).1.reg d rEAX = s.1.reg d rEAX := by
  induction n with
  | zero => exact ⟨rfl, rfl⟩
  | succ n ih =>
    rw [Function.iterate_succ_apply']
    refine ⟨ih.1, Eq.trans ?_ ih.2⟩
    rw [round, reg_eax_setReg _ _ (by decide), element, CpuState.moveIndex, reg_eax_setReg _ _ (by decide),
      CpuState.reg_setFlag]

theorem scas_flag : (scas.round d s).1.flag .ZF = equalAt d s 0 := by
  rw [round, CpuState.flag_setReg, element, CpuState.moveIndex, CpuState.flag_setReg,
    CpuState.flag_setFlag, if_pos rfl, equalAt, BitVec.zero_mul, BitVec.add_zero]

/-- The rounds of `scas` go along the string. -/
theorem scas_equal (n : ℕ) : equalAt d ((scas.round d)^[n] s) 0 = equalAt d s n := by
  obtain ⟨hmem, hacc⟩ := scas_rounds d s n
  rw [equalAt, equalAt, hmem, hacc, rounds_edi _ _ _ (by decide), rounds_linear, BitVec.zero_mul,
    BitVec.add_zero]

/-- When a round of `scas` is the last. -/
theorem scas_hit (z : Bool) (n : ℕ) : scas.hit d z ((scas.round d)^[n] s) = (equalAt d s n == z) := by
  rw [hit, scas_flag, scas_equal, beq_self_eq_true, Bool.true_and]

theorem hit_of_ne {op : StringOp} (hop : op ≠ scas) (d : Width) (z : Bool) (s : CpuState × Mem) :
    op.hit d z s = false := by
  rw [hit, beq_eq_false_iff_ne.mpr hop, Bool.false_and]

end StringOp

/-! ### The instructions do the step -/

section Sim

variable {P : Type} [Bus P] [Ram P]

variable {fs : List Flag} {op : StringOp} {b : Bool} {d : Width} {s : CpuState × Mem} {m m' : Machine P}
  {E : Failure → Prop}

omit [Bus P] [Ram P] in
theorem df_not_mem (op : StringOp) : Flag.DF ∉ op.flags := by cases op <;> decide

omit [Bus P] [Ram P] in
theorem zf_not_mem (op : StringOp) : Flag.ZF ∉ op.flags := by cases op <;> decide

/-- Only at `scas` does a repetition look at `ZF`. -/
theorem compares_opcode (op : StringOp) (d : Width) :
    compares ((op.opcode d).setWidth 32) = (op == .scas) := by
  cases op <;> cases d <;> decide

theorem stepIndex_sim (h : Sim op.flags b s m) (d : Width) (i : Fin 8) :
    Returns (fun _ m' => Sim op.flags b (s.1.moveIndex d i, s.2) m' ∧ m'.ops = m.ops) (stepIndex d i m) E := by
  have hdown : m.flag .DF = s.1.flag .DF := h.flag (df_not_mem op)
  have hmove : (if m.flag .DF then m.reg .l i - d.len else m.reg .l i + d.len) =
      s.1.reg .l i + s.1.stride d := by
    rw [hdown, h.reg, CpuState.stride]
    split
    · rw [BitVec.sub_eq_add_neg]
    · rfl
  have hdone := h.setReg .l i (s.1.reg .l i + s.1.stride d)
  rw [← hmove] at hdone
  refine ⟨?_, rfl⟩
  rw [CpuState.moveIndex, ← hmove]
  exact hdone

variable [hE : Accesses P E]

theorem doMovs_sim (h : Sim StringOp.movs.flags b s m) :
    Returns (fun _ m' => Sim StringOp.movs.flags b (StringOp.movs.element d s) m' ∧ m'.ops = m.ops) (doMovs d m) E := by
  unfold doMovs
  rw [read_bind_run]
  refine (swaddrRead_sim h d.len_ok (by decide) _).bind fun v m₁ hread => ?_
  obtain ⟨hsim₁, hops₁, hv⟩ := hread
  rw [read_bind_run]
  refine (swaddrWrite_sim hsim₁ d.len_ok (by decide) _ v).bind fun _ m₂ hwrite => ?_
  obtain ⟨hsim₂, hops₂⟩ := hwrite
  refine (stepIndex_sim hsim₂ d rEDI).bind fun _ m₃ hedi => ?_
  refine (stepIndex_sim hedi.1 d rESI).mono fun _ m₄ hesi => ⟨?_, ?_⟩
  · have hdone := hesi.1
    rw [hsim₁.reg, hv, h.reg] at hdone
    exact hdone
  · rw [hesi.2, hedi.2, hops₂, hops₁]

theorem doStos_sim (h : Sim StringOp.stos.flags b s m) :
    Returns (fun _ m' => Sim StringOp.stos.flags b (StringOp.stos.element d s) m' ∧ m'.ops = m.ops) (doStos d m) E := by
  unfold doStos
  rw [read_bind_run, read_bind_run]
  refine (swaddrWrite_sim h d.len_ok (by decide) _ _).bind fun _ m₁ hwrite => ?_
  obtain ⟨hsim₁, hops₁⟩ := hwrite
  refine (stepIndex_sim hsim₁ d rEDI).mono fun _ m₂ hedi => ⟨?_, hedi.2.trans hops₁⟩
  have hdone := hedi.1
  rw [h.reg, h.reg] at hdone
  exact hdone

theorem doLods_sim (h : Sim StringOp.lods.flags b s m) :
    Returns (fun _ m' => Sim StringOp.lods.flags b (StringOp.lods.element d s) m' ∧ m'.ops = m.ops) (doLods d m) E := by
  unfold doLods
  rw [read_bind_run]
  refine (swaddrRead_sim h d.len_ok (by decide) _).bind fun v m₁ hread => ?_
  obtain ⟨hsim₁, hops₁, hv⟩ := hread
  rw [write_bind_run]
  refine (stepIndex_sim (hsim₁.setReg d rEAX v) d rESI).mono fun _ m₂ hesi => ⟨?_, hesi.2.trans hops₁⟩
  have hdone := hesi.1
  rw [hv, h.reg] at hdone
  exact hdone

omit hE in
/-- The flags of `scas`: those of the abstract step, but for the others it sets. -/
theorem setSubFlags_sim (h : Sim StringOp.scas.flags b s m) (carry : Bool) (dest src result : Word) :
    Returns (fun _ m' => Sim StringOp.scas.flags b (s.1.setFlag .ZF (result == 0), s.2) m' ∧ m'.ops = m.ops)
      (setSubFlags d carry dest src result m) E := by
  have hcf := h.setOwn (show Flag.CF ∈ StringOp.scas.flags by decide) carry
  have hof := hcf.setOwn (show Flag.OF ∈ StringOp.scas.flags by decide)
    (d.msb dest != d.msb src && d.msb result == d.msb src)
  have hsf := hof.setOwn (show Flag.SF ∈ StringOp.scas.flags by decide) (d.msb result)
  have hzf := hsf.setFlag .ZF (result == 0)
  exact ⟨hzf.setOwn (show Flag.PF ∈ StringOp.scas.flags by decide) (parity result), rfl⟩

theorem doScas_sim (h : Sim StringOp.scas.flags b s m) :
    Returns (fun _ m' => Sim StringOp.scas.flags b (StringOp.scas.element d s) m' ∧ m'.ops = m.ops) (doScas d m) E := by
  unfold doScas
  rw [read_bind_run]
  refine (swaddrRead_sim h d.len_ok (by decide) _).bind fun v m₁ hread => ?_
  obtain ⟨hsim₁, hops₁, hv⟩ := hread
  rw [read_bind_run, read_bind_run, read_bind_run]
  refine (setSubFlags_sim hsim₁ _ _ _ _).bind fun _ m₂ hflags => ?_
  refine (stepIndex_sim hflags.1 d rEDI).mono fun _ m₃ hedi => ⟨?_, ?_⟩
  · have hdone := hedi.1
    have hzero : (d.trunc (m₁.reg d rEAX - v) == 0) =
        (s.1.reg d rEAX == peek s.2 (s.1.linear (s.1.reg .l rEDI) 0) d.bytes) := by
      have hacc : d.trunc (m₁.reg d rEAX) = m₁.reg d rEAX := Width.trunc_of_lt (m₁.toNat_reg_lt d rEAX)
      have hv' : v = peek s.2 (s.1.linear (s.1.reg .l rEDI) 0) d.bytes := by
        rw [hv, h.reg]
        rfl
      rw [← hv', ← hsim₁.reg, Bool.eq_iff_iff, beq_iff_eq, beq_iff_eq]
      exact Width.trunc_sub_eq_zero hacc (by rw [hv', trunc_peek])
    rw [hzero] at hdone
    exact hdone
  · rw [hedi.2, hflags.2, hops₁]

/-- **One element.** -/
theorem StringOp.exec_sim {op : StringOp} (h : Sim op.flags b s m) :
    Returns (fun _ m' => Sim op.flags b (op.element d s) m' ∧ m'.ops = m.ops) (op.exec d m) E := by
  cases op with
  | movs => exact doMovs_sim h
  | stos => exact doStos_sim h
  | lods => exact doLods_sim h
  | scas => exact doScas_sim h

section Exec

variable {ex : Helper P} {fuel : ℕ} {eip : Word} {Q : Word → Machine P → Prop}

set_option maxRecDepth 20000 in
omit [Ram P] hE in
/-- The opcodes of the string instructions. -/
theorem string_tables (op : StringOp) (ex : Helper P) (fuel : ℕ) :
    entry (opcodeTable ex fuel) (op.opcode .b).toNat = opN (fun d => op.exec d) .b ∧
    ∀ d, d ≠ .b → entry (opcodeTable ex fuel) (op.opcode d).toNat =
      helperV (opN (fun d => op.exec d)) := by
  refine ⟨by cases op <;> rfl, fun d hd => ?_⟩
  cases d with
  | b => exact absurd rfl hd
  | w => cases op <;> rfl
  | l => cases op <;> rfl

/-- What executing one element leaves. -/
structure Stepped (fs : List Flag) (op : StringOp) (d : Width) (b : Bool) (s : CpuState × Mem)
    (m' : Machine P) : Prop where
  sim : Sim fs b (op.element d s) m'
  opcode : m'.ops.opcode = (op.opcode d).setWidth 32
  text : m'.assembly.length.val = 4

omit [Bus P] [Ram P] hE in
instance (a : Assembly) : RegsKept (P := P) (TextIs a) :=
  ⟨fun _ _ => ⟨fun _ h => h⟩, fun d _ _ => ⟨fun _ h => by cases d <;> exact h⟩⟩

omit [Bus P] [Ram P] hE in
instance (a : Assembly) : FlagsKept (P := P) (TextIs a) := ⟨fun _ _ _ => ⟨fun _ h => h⟩⟩

omit [Ram P] hE in
theorem StringOp.exec_text (op : StringOp) (a : Assembly) : Keeps (TextIs (P := P) a) (op.exec d) := by
  cases op <;> unfold StringOp.exec <;> infer_instance

/-- The text of the instruction is its name. -/
theorem print_opcode (a : Assembly) (op : StringOp) (d : Width) :
    (a.print ((op.opcode d).setWidth 32)).length = 4 := by
  cases op <;> cases d <;> rfl

theorem print_of_prefix_mem (a : Assembly) {opcode : Word} (h : opcode ∈ prefixOpcodes) : a.print opcode = a := if_pos h

theorem opN_sim (h : Sim op.flags b s m) (hopcode : m.ops.opcode = (op.opcode d).setWidth 32) {a : Assembly}
    (htext : TextIs (a.print ((op.opcode d).setWidth 32)) m) :
    Returns (fun _ => Stepped op.flags op d b s) (opN (fun d => op.exec d) d eip m) E := by
  have htype : Sim op.flags b s (m.setType .src .imm) := ⟨h.cpu, h.flags, h.mem, h.size⟩
  have hkeep := op.exec_text (P := P) (d := d) (a.print ((op.opcode d).setWidth 32))
  unfold opN idex
  change Returns _ ((op.exec d >>= fun _ => pure (0 + 1)) (m.setType .src .imm)) E
  refine ((StringOp.exec_sim htype).and_keeps (I := TextIs (a.print ((op.opcode d).setWidth 32))) htext).bind
    fun _ m' hstep => ⟨hstep.1.1, ?_, ?_⟩
  · rw [hstep.1.2]
    exact hopcode
  · rw [hstep.2, print_opcode]
    rfl

/-- The opcode alone, under the operand size of the width. -/
theorem exec_element (h : Sim op.flags b s m) (hd : d = .b ∨ b = (d == .w))
    (hcode : Coded s eip [op.opcode d]) :
    Returns (fun _ => Stepped op.flags op d b s) (exec (fuel + 1) eip m) E := by
  refine exec_entry_text h hcode.head fun m' hsim hopcode htext => ?_
  by_cases hb : d = .b
  · subst hb
    rw [(string_tables op _ _).1]
    exact opN_sim hsim hopcode htext
  · have hsize := hd.resolve_left hb
    rw [(string_tables op _ _).2 d hb, helperV, read_bind_run, hsim.size]
    cases d with
    | b => exact absurd rfl hb
    | w =>
      rw [if_pos (show b = true from hsize)]
      exact opN_sim hsim hopcode htext
    | l =>
      rw [if_neg (by rw [show b = false from hsize]; exact Bool.false_ne_true)]
      exact opN_sim hsim hopcode htext

/-- Under its own prefix, at operand size 32. -/
theorem exec_prefixed (h : Sim op.flags false s m) (hcode : Coded s eip [0x66, op.opcode .w]) :
    Returns (fun _ => Stepped op.flags op .w false s) (exec (fuel + 2) eip m) E := by
  refine exec_entry h hcode.head fun m' hsim _ => ?_
  change Returns _ (operandSize (exec (fuel + 1)) eip m') E
  unfold operandSize
  rw [write_bind_run]
  refine (exec_element (hsim.setOperandSize16 true) (.inr rfl) hcode.tail).bind fun _ m₂ hstep => ?_
  exact ⟨hstep.sim.setOperandSize16 false, hstep.opcode, hstep.text⟩

/-! ### The loop -/

/-- How many rounds are done. -/
def StringOp.rounds (op : StringOp) (d : Width) (z : Bool) (s : CpuState × Mem) : ℕ :=
  steps (op.round d) (op.hit d z) (s.1.reg .l rECX).toNat s

/-- What the loop leaves: the rounds are done and counted, and the text is that of the
last one. -/
structure Looped (fs : List Flag) (op : StringOp) (d : Width) (z b : Bool) (s : CpuState × Mem)
    (count text c : ℕ) (m' : Machine P) : Prop where
  sim : Sim fs b (repeatUntil (op.round d) (op.hit d z) (s.1.reg .l rECX).toNat s) m'
  count : c = count + op.rounds d z s
  fits : c < 2 ^ 31
  text : m'.assembly.length.val = if op.rounds d z s = 0 then text else 4

omit hE in
/-- **The loop** does the rounds. -/
theorem repLoop_sim {z : Bool} {code : List Byte} (hzf : Flag.ZF ∉ fs)
    (hstep : ∀ (s : CpuState × Mem) (m : Machine P), Sim fs b s m → Coded s (eip + 1) code →
      Returns (fun _ => Stepped fs op d b s) (ex (eip + 1) m) E) :
    ∀ (fuel count : ℕ) (s : CpuState × Mem) (m : Machine P), Sim fs b s m → count < 2 ^ 31 →
      (s.1.reg .l rECX).toNat < fuel →
      (∀ i < (s.1.reg .l rECX).toNat, Coded ((op.round d)^[i] s) (eip + 1) code) →
      (¬ count + op.rounds d z s < 2 ^ 31 → E .assertion) →
      Returns (Looped fs op d z b s count m.assembly.length) (repLoop ex z eip fuel count m) E := by
  intro fuel
  induction fuel with
  | zero => exact fun count s m _ _ hlt => absurd hlt (Nat.not_lt_zero _)
  | succ fuel ih =>
    intro count s m h hcount hlt hcode hover
    have hecx : m.reg .l rECX = s.1.reg .l rECX := h.reg .l rECX
    rw [repLoop, read_bind_run, hecx]
    by_cases hz : s.1.reg .l rECX = 0
    · have hrounds : op.rounds d z s = 0 := by
        rw [StringOp.rounds, hz]
        rfl
      rw [if_pos hz]
      refine ⟨?_, by rw [hrounds, Nat.add_zero], hcount, by rw [if_pos hrounds]⟩
      rw [hz]
      exact h
    rw [if_neg hz]
    obtain ⟨n, hn⟩ : ∃ n, (s.1.reg .l rECX).toNat = n + 1 := by
      refine Nat.exists_eq_succ_of_ne_zero fun h0 => hz ?_
      exact BitVec.eq_of_toNat_eq h0
    have hpos : op.rounds d z s ≠ 0 := Nat.ne_of_gt (steps_pos (by rw [hn]; exact n.succ_pos) s)
    rw [hn] at hlt hcode
    refine (hstep s m h (hcode 0 n.succ_pos)).bind fun _ m₁ hdone => ?_
    -- the count goes up
    rw [bind_run, countUp_run]
    by_cases hup : count + 1 < 2 ^ 31
    case neg =>
      rw [if_neg hup]
      exact hover fun hlt => hup (by omega)
    rw [if_pos hup]
    have hround : Sim fs b (op.round d s) (m₁.setReg .l rECX (m₁.reg .l rECX - 1)) := by
      rw [hdone.sim.reg]
      exact hdone.sim.setReg .l rECX _
    dsimp only [andThen]
    simp only [read_bind_run, write_bind_run]
    have hhit : (compares (m₁.setReg .l rECX (m₁.reg .l rECX - 1)).ops.opcode = true ∧
        (m₁.setReg .l rECX (m₁.reg .l rECX - 1)).flag .ZF = z) ↔ op.hit d z s = true := by
      have hop : (m₁.setReg .l rECX (m₁.reg .l rECX - 1)).ops.opcode = (op.opcode d).setWidth 32 := hdone.opcode
      rw [hround.flag hzf, hop, compares_opcode, StringOp.hit, Bool.and_eq_true, beq_iff_eq (b := z)]
    by_cases hlast : op.hit d z s = true
    · have hrounds : op.rounds d z s = 1 := by rw [StringOp.rounds, hn, steps, if_pos hlast]
      rw [if_pos (hhit.mpr hlast)]
      refine ⟨?_, by rw [hrounds], hup, by rw [if_neg hpos]; exact hdone.text⟩
      rw [hn, repeatUntil, if_pos hlast]
      exact hround
    · rw [if_neg fun h => hlast (hhit.mp h)]
      have hleft : ((op.round d s).1.reg .l rECX).toNat = n := by
        rw [StringOp.round_ecx, BitVec.toNat_sub_of_le, hn]
        · rfl
        · rw [BitVec.le_def, hn]
          exact Nat.succ_le_succ (Nat.zero_le n)
      have hrounds : op.rounds d z s = op.rounds d z (op.round d s) + 1 := by
        rw [StringOp.rounds, hn, steps, if_neg hlast, StringOp.rounds, hleft]
      refine (ih (count + 1) _ _ hround hup (by omega) (fun i hi => hcode (i + 1) (by omega))
        fun h => hover (by omega)).mono fun c m' hloop => ⟨?_, by rw [hloop.count]; omega, hloop.fits, ?_⟩
      · rw [hn, repeatUntil, if_neg hlast, ← hleft]
        exact hloop.sim
      · rw [hloop.text, if_neg hpos]
        split
        · exact hdone.text
        · rfl

/-- **One element**, in the loop. -/
theorem exec_bare (hb : b = true → d = .w) (hlen : (op.bare d b).length ≤ fuel)
    (h : Sim op.flags b s m) (hcode : Coded s eip (op.bare d b)) :
    Returns (fun _ => Stepped op.flags op d b s) (exec fuel eip m) E := by
  by_cases hbare : d = .w ∧ b = false
  · obtain ⟨rfl, rfl⟩ := hbare
    obtain ⟨n, rfl⟩ := Nat.exists_eq_add_of_le' hlen
    exact exec_prefixed h hcode
  · rw [StringOp.bare, if_neg hbare] at hlen hcode
    obtain ⟨n, rfl⟩ := Nat.exists_eq_add_of_le' hlen
    refine exec_element h ?_ hcode
    cases b with
    | true => exact .inr (by rw [hb rfl]; rfl)
    | false =>
      cases d with
      | b => exact .inl rfl
      | w => exact absurd ⟨rfl, rfl⟩ hbare
      | l => exact .inr rfl

/-- How long the name of the prefix is. -/
def repName (z : Bool) : ℕ := if z then 5 else 3

/-- **Under the prefix** the loop is executed, when no `ret` follows, and the text is
printed. -/
theorem exec_rep {z : Bool} {k : Byte} {code : List Byte} {R : ℕ → Machine P → Prop} {Q : Machine P → Prop}
    (hk : k ≠ 0xc3) (h : Sim fs b s m) (hcode : Coded s eip (StringOp.repByte z :: k :: code))
    (hloop : ∀ m', Sim fs b s m' → TextIs m.assembly m' → Returns R (repLoop (exec fuel) z eip fuel 0 m') E)
    (hprint : ∀ c m', R c m' → Returns (fun _ => Q) (printRep (repName z) c m') E) :
    Returns (fun _ => Q) (exec (fuel + 1) eip m) E := by
  refine exec_entry_text h hcode.head fun m' hsim _ htext => ?_
  rw [print_of_prefix_mem _ (by cases z <;> decide)] at htext
  cases z with
  | true =>
    change Returns _ (repnz (exec fuel) fuel eip m') E
    unfold repnz
    refine (hloop m' hsim htext).bind fun c m₁ hdone => ?_
    exact (hprint c m₁ hdone).bind fun _ _ hdone => hdone
  | false =>
    change Returns _ (rep (exec fuel) fuel eip m') E
    unfold rep
    refine ((fetch_sim hsim).and_keeps htext).bind fun v m₁ hfetch => ?_
    obtain ⟨⟨hsim₁, hv⟩, htext₁⟩ := hfetch
    have hnext : v ≠ 0xc3 := by
      rw [hv, hcode.tail.head]
      intro heq
      refine hk (BitVec.eq_of_toNat_eq ?_)
      have hnat := congrArg BitVec.toNat heq
      rw [BitVec.toNat_setWidth, Nat.mod_eq_of_lt (by omega)] at hnat
      exact hnat
    rw [if_neg hnext]
    refine (hloop m₁ hsim₁ htext₁).bind fun c m₂ hdone => ?_
    exact (hprint c m₂ hdone).bind fun _ _ hdone => hdone

omit [Bus P] [Ram P] hE in
theorem opcode_ne_ret (op : StringOp) (d : Width) : op.opcode d ≠ 0xc3 := by
  cases op <;> cases d <;> decide

/-- The loop left the state `t`, with this count and this text. -/
def LeftAs (fs : List Flag) (b : Bool) (t : CpuState × Mem) (T : ℕ → ℕ → Prop) (c : ℕ) (m' : Machine P) : Prop :=
  Sim fs b t m' ∧ T c m'.assembly.length

omit hE in
/-- The text is printed, if there is room for it. -/
theorem printRep_left {z : Bool} {t : CpuState × Mem} {T : ℕ → ℕ → Prop}
    (hprint : ∀ c text, T c text → ¬ repText (repName z) text c < 80 → E .assertion) {c : ℕ} {m' : Machine P}
    (h : LeftAs fs b t T c m') :
    Returns (fun _ m'' => Sim fs b t m'' ∧ ∃ c text, T c text ∧ repText (repName z) text c < 80)
      (printRep (repName z) c m') E := by
  rw [printRep_run]
  split
  · next hfits => exact ⟨⟨h.1.cpu, h.1.flags, h.1.mem, h.1.size⟩, c, _, h.2, hfits⟩
  · next hfits => exact hprint c _ h.2 hfits

/-- **The encodings** execute the loop on the bytes for one element. -/
theorem exec_encoding {z : Bool} {code : List Byte} {t : CpuState × Mem} {T : ℕ → ℕ → Prop} {n : ℕ}
    (hcode : code ∈ op.encodings d z) (h : Sim fs false s m) (hat : Coded s eip code)
    (hloop : ∀ (b : Bool) (e : Word) (f : ℕ) (m' : Machine P), (b = true → d = .w) →
      (op.bare d b).length ≤ f → n < f →
      (∀ s' : CpuState × Mem, Coded s' eip code → Coded s' (e + 1) (op.bare d b)) → Sim fs b s m' →
      TextIs m.assembly m' → Returns (LeftAs fs b t T) (repLoop (exec f) z e f 0 m') E)
    (hprint : ∀ c text, T c text → ¬ repText (repName z) text c < 80 → E .assertion) :
    Returns (fun _ m' => Sim fs false t m' ∧ ∃ c text, T c text ∧ repText (repName z) text c < 80)
      (exec (n + 3) eip m) E := by
  unfold StringOp.encodings at hcode
  by_cases hd : d = .w
  · subst hd
    rw [if_pos rfl] at hcode
    rcases List.mem_pair.mp hcode with rfl | rfl
    · -- the prefix of the operand size comes first
      refine exec_entry_text h hat.head fun m' hsim _ htext => ?_
      rw [print_of_prefix_mem _ (by decide)] at htext
      change Returns _ (operandSize (exec (n + 2)) eip m') E
      unfold operandSize
      rw [write_bind_run]
      refine (exec_rep (R := LeftAs fs true t T) (opcode_ne_ret op .w) (hsim.setOperandSize16 true) hat.tail
        (fun m₁ hsim₁ htext₁ => ?_) fun c m₁ => printRep_left hprint).bind fun _ m₂ hdone =>
          ⟨hdone.1.setOperandSize16 false, hdone.2⟩
      refine hloop true (eip + 1) (n + 1) m₁ (fun _ => rfl) ?_ (by omega) (fun s' hs' => hs'.tail.tail) hsim₁
        (Eq.trans htext₁ htext)
      exact Nat.le_add_left 1 n
    · refine exec_rep (by decide) h hat (fun m₁ hsim₁ htext₁ => ?_) fun c m₁ => printRep_left hprint
      refine hloop false eip (n + 2) m₁ (fun h => nomatch h) ?_ (by omega) (fun s' hs' => hs'.tail) hsim₁ htext₁
      exact Nat.le_add_left 2 n
  · rw [if_neg hd] at hcode
    obtain rfl := List.mem_singleton.mp hcode
    have hbare : op.bare d false = [op.opcode d] := if_neg fun h => hd h.1
    refine exec_rep (opcode_ne_ret op d) h hat (fun m₁ hsim₁ htext₁ => ?_) fun c m₁ => printRep_left hprint
    refine hloop false eip (n + 2) m₁ (fun h => nomatch h) ?_ (by omega) (fun s' hs' => ?_) hsim₁ htext₁
    · rw [hbare]
      exact Nat.le_add_left 1 (n + 1)
    · rw [hbare]
      exact hs'.tail

end Exec

/-! ### The repeated instruction -/

/-- No element that is written overlaps the bytes of the instruction. -/
def Spared (op : StringOp) (d : Width) (s : CpuState × Mem) (eip : Word) (len : ℕ) : Prop :=
  op.writes = true → ∀ i < (s.1.reg .l rECX).toNat, ∀ j < len,
    ¬ In (s.1.linear (s.1.reg .l rEDI + BitVec.ofNat 32 i * s.1.stride d) 0) d.bytes
      (s.1.linear (eip + BitVec.ofNat 32 j) 1)

omit [Bus P] [Ram P] hE in
/-- The instruction is there in each round. -/
theorem Coded.rounds {eip : Word} {code : List Byte} (h : Coded s eip code)
    (hspared : Spared op d s eip code.length) :
    ∀ i ≤ (s.1.reg .l rECX).toNat, Coded ((op.round d)^[i] s) eip code := by
  intro i
  induction i with
  | zero => exact fun _ => h
  | succ i ih =>
    intro hi j hj
    rw [Function.iterate_succ_apply', StringOp.round_linear]
    refine Eq.trans ?_ (ih (Nat.le_of_succ_le hi) j hj)
    refine StringOp.element_mem op d _ fun hw => ?_
    have hne : op ≠ .lods := by
      rintro rfl
      exact nomatch hw
    rw [StringOp.rounds_edi _ _ _ hne, StringOp.rounds_linear, StringOp.rounds_linear]
    exact hspared hw i hi j hj

omit [Bus P] [Ram P] hE in
theorem rounds_ecx_zero : ((op.round d)^[(s.1.reg .l rECX).toNat] s).1.reg .l rECX = 0 := by
  rw [StringOp.rounds_ecx, BitVec.ofNat_toNat, BitVec.setWidth_eq, BitVec.sub_self]
  rfl

/-- What a repeated string instruction leaves. -/
structure Repeated (op : StringOp) (d : Width) (z : Bool) (m m' : Machine P) : Prop where
  none : m.reg .l rECX = 0 → m'.cpu = m.cpu ∧ m'.mem = m.mem
  all : op ≠ .scas →
    (m'.cpu, m'.mem) = (op.round d)^[(m.reg .l rECX).toNat] (m.cpu, m.mem) ∧ m'.reg .l rECX = 0
  found : op = .scas → ∀ k < (m.reg .l rECX).toNat, StringOp.equalAt d (m.cpu, m.mem) k = z →
    (∀ i < k, StringOp.equalAt d (m.cpu, m.mem) i ≠ z) →
    Sim op.flags false ((op.round d)^[k + 1] (m.cpu, m.mem)) m' ∧
      m'.reg .l rECX = m.reg .l rECX - BitVec.ofNat 32 (k + 1) ∧ m'.flag .ZF = z ∧
      m'.reg .l rEDI = m.reg .l rEDI + BitVec.ofNat 32 (k + 1) * m.cpu.stride d
  missed : op = .scas → (∀ i < (m.reg .l rECX).toNat, StringOp.equalAt d (m.cpu, m.mem) i ≠ z) →
    Sim op.flags false ((op.round d)^[(m.reg .l rECX).toNat] (m.cpu, m.mem)) m' ∧ m'.reg .l rECX = 0

omit hE in
/-- What that is, from the rounds that are done. -/
theorem repeated_of_sim {z : Bool} (h : Sim op.flags false
    (repeatUntil (op.round d) (op.hit d z) (m.reg .l rECX).toNat (m.cpu, m.mem)) m')
    (hnone : m.reg .l rECX = 0 → m'.cpu = m.cpu ∧ m'.mem = m.mem) : Repeated op d z m m' where
  none := hnone
  all hop := by
    rw [repeatUntil_of_miss _ _ fun i _ => StringOp.hit_of_ne hop d z _] at h
    have hflags : op.flags = [] := by
      cases op
      case scas => exact absurd rfl hop
      all_goals rfl
    rw [hflags] at h
    exact ⟨Prod.ext h.cpu_eq h.mem, (h.reg .l rECX).trans (rounds_ecx_zero (s := (m.cpu, m.mem)))⟩
  found hop k hk hequal hfirst := by
    subst hop
    have hmiss : ∀ i < k, StringOp.scas.hit d z ((StringOp.scas.round d)^[i] (m.cpu, m.mem)) = false := by
      intro i hi
      rw [StringOp.scas_hit, beq_eq_false_iff_ne]
      exact hfirst i hi
    rw [repeatUntil_of_hit _ k _ hk (by rw [StringOp.scas_hit, hequal, beq_self_eq_true]) hmiss] at h
    refine ⟨h, ?_, ?_, ?_⟩
    · rw [h.reg, StringOp.rounds_ecx]
      rfl
    · rw [h.flag (by decide), Function.iterate_succ_apply', StringOp.scas_flag,
        StringOp.scas_equal, hequal]
    · rw [h.reg, StringOp.rounds_edi _ _ _ (by decide)]
      rfl
  missed hop hmiss := by
    subst hop
    have hnot : ∀ i < (m.reg .l rECX).toNat,
        StringOp.scas.hit d z ((StringOp.scas.round d)^[i] (m.cpu, m.mem)) = false := by
      intro i hi
      rw [StringOp.scas_hit, beq_eq_false_iff_ne]
      exact hmiss i hi
    rw [repeatUntil_of_miss _ _ hnot] at h
    exact ⟨h, (h.reg .l rECX).trans (rounds_ecx_zero (s := (m.cpu, m.mem)))⟩

/-- The rounds can be counted, and the text printed. The first is the case if `ecx`
counts no more, or `scas` finds what it looks for in time; the second if there is room
behind the text of an earlier instruction, which stays if no round is done. -/
structure RepFits (op : StringOp) (d : Width) (z : Bool) (m : Machine P) : Prop where
  count : (m.reg .l rECX).toNat < 2 ^ 31 ∨
    op = .scas ∧ ∃ k, k + 1 < 2 ^ 31 ∧ StringOp.equalAt d (m.cpu, m.mem) k = z
  text : m.reg .l rECX = 0 → repText (repName z) m.assembly.length 0 < 80

omit [Bus P] [Ram P] hE in
theorem StringOp.rounds_lt_iff {z : Bool} {n : ℕ} : op.rounds d z s < n ↔
    (s.1.reg .l rECX).toNat < n ∨ op = .scas ∧ ∃ k, k + 1 < n ∧ StringOp.equalAt d s k = z := by
  rw [StringOp.rounds, steps_lt_iff]
  refine or_congr_right ⟨?_, ?_⟩
  · rintro ⟨k, hk, hhit⟩
    have hop : op = .scas := by
      by_contra hne
      rw [StringOp.hit_of_ne hne] at hhit
      exact nomatch hhit
    subst hop
    rw [StringOp.scas_hit, beq_iff_eq] at hhit
    exact ⟨rfl, k, hk, hhit⟩
  · rintro ⟨rfl, k, hk, hequal⟩
    exact ⟨k, hk, by rw [StringOp.scas_hit, hequal, beq_self_eq_true]⟩

omit [Bus P] [Ram P] hE in
theorem StringOp.rounds_eq_zero_iff {z : Bool} : op.rounds d z s = 0 ↔ s.1.reg .l rECX = 0 := by
  constructor
  · intro h
    by_contra hne
    refine absurd h (Nat.ne_of_gt (steps_pos (Nat.pos_of_ne_zero fun h0 => hne ?_) s))
    exact BitVec.eq_of_toNat_eq h0
  · intro h
    rw [StringOp.rounds, h]
    rfl

/-- There is always room behind the name of a string instruction. -/
theorem repText_lt {c : ℕ} (hc : c < 2 ^ 31) (z : Bool) : repText (repName z) 4 c < 80 := by
  have hdigits : (Decimal.digits c).length ≤ 10 :=
    (Nat.length_toDigits_le_iff (by decide) (by decide)).mpr (by omega)
  have hname : repName z ≤ 5 := by cases z <;> decide
  unfold repText
  omega

/-- The repeated instruction ends, where an access that fails and a text or a count that
does not fit end in an abort. -/
theorem rep_returns {z : Bool} {code : List Byte} {eip : Word} {fuel : ℕ}
    (hcode : code ∈ op.encodings d z) (hsize : m.ops.isOperandSize16 = false)
    (hat : Coded (m.cpu, m.mem) eip code) (hspared : Spared op d (m.cpu, m.mem) eip code.length)
    (hfuel : (m.reg .l rECX).toNat + 3 ≤ fuel) (hfits : ¬ RepFits op d z m → E .assertion) :
    Returns (fun _ m' => Repeated op d z m m' ∧ RepFits op d z m) (exec fuel eip m) E := by
  obtain ⟨n, rfl⟩ := Nat.exists_eq_add_of_le' (Nat.le_of_add_left_le hfuel)
  have hn : (m.reg .l rECX).toNat ≤ n := by omega
  have hsim : ∀ fs, Sim fs false (m.cpu, m.mem) m := fun fs => ⟨rfl, Only.refl fs _, rfl, hsize⟩
  let T : ℕ → ℕ → Prop := fun c text => c = op.rounds d z (m.cpu, m.mem) ∧ c < 2 ^ 31 ∧
    text = if op.rounds d z (m.cpu, m.mem) = 0 then m.assembly.length.val else 4
  -- with a round there is room, and without one as the condition says
  have hroom : ∀ c text, T c text → (repText (repName z) text c < 80 ↔ RepFits op d z m) := by
    rintro c text ⟨rfl, hlt, rfl⟩
    have hcount := StringOp.rounds_lt_iff.mp hlt
    by_cases hz : m.reg .l rECX = 0
    · have hrounds : op.rounds d z (m.cpu, m.mem) = 0 := StringOp.rounds_eq_zero_iff.mpr hz
      rw [if_pos hrounds, hrounds]
      exact ⟨fun h => ⟨hcount, fun _ => h⟩, fun h => h.text hz⟩
    · rw [if_neg fun h => hz (StringOp.rounds_eq_zero_iff (s := (m.cpu, m.mem)).mp h)]
      exact ⟨fun _ => ⟨hcount, fun h => absurd h hz⟩, fun _ => repText_lt hlt z⟩
  have hprint : ∀ c text, T c text → ¬ repText (repName z) text c < 80 → E .assertion :=
    fun c text hT hlt => hfits fun h => hlt ((hroom c text hT).mpr h)
  have hpost : ∀ {c text}, T c text ∧ repText (repName z) text c < 80 → RepFits op d z m :=
    fun h => (hroom _ _ h.1).mp h.2
  by_cases hz : m.reg .l rECX = 0
  · -- the loop is not entered, and nothing changes
    have hrounds : op.rounds d z (m.cpu, m.mem) = 0 := StringOp.rounds_eq_zero_iff.mpr hz
    refine (exec_encoding (t := (m.cpu, m.mem)) (T := T) hcode (hsim []) hat
      (fun b e f m' _ _ hf _ h htext => ?_) hprint).mono fun _ m' hend => ?_
    · obtain ⟨f, rfl⟩ := Nat.exists_eq_succ_of_ne_zero (Nat.ne_zero_of_lt hf)
      have hecx : m'.reg .l rECX = 0 := (h.reg .l rECX).trans hz
      rw [repLoop, read_bind_run, hecx, if_pos rfl]
      exact ⟨h, hrounds.symm, by decide, by rw [if_pos hrounds, htext]⟩
    · obtain ⟨h, c, text, hdone⟩ := hend
      refine ⟨repeated_of_sim ?_ fun _ => ⟨h.cpu_eq, h.mem⟩, hpost hdone⟩
      rw [hz]
      exact ⟨h.cpu, fun i hi => h.flags i fun f hf => absurd hf List.not_mem_nil, h.mem, h.size⟩
  · let t := repeatUntil (op.round d) (op.hit d z) (m.reg .l rECX).toNat (m.cpu, m.mem)
    refine (exec_encoding (t := t) (T := T) hcode (hsim op.flags) hat
      (fun b e f m' hb hlen hf hbare h htext => ?_) hprint).mono fun _ m' hend => ?_
    rotate_left
    · obtain ⟨h, c, text, hdone⟩ := hend
      exact ⟨repeated_of_sim h fun hzero => absurd hzero hz, hpost hdone⟩
    refine (repLoop_sim (zf_not_mem op) (fun s' m'' h' hc' => exec_bare hb hlen h' hc') f 0 (m.cpu, m.mem) m' h
      (by decide) (Nat.lt_of_le_of_lt hn hf) (fun i hi => ?_) fun hover => ?_).mono fun c m₁ hloop => ?_
    · exact hbare _ (hat.rounds hspared i (Nat.le_of_lt hi))
    · rw [Nat.zero_add] at hover
      exact hfits fun h => hover (StringOp.rounds_lt_iff.mpr h.count)
    · refine ⟨hloop.sim, by rw [hloop.count, Nat.zero_add], hloop.fits, ?_⟩
      rw [hloop.text, htext]

end Sim

/-- `rep stosb` with 3 in all registers. -/
def stosMachine : Machine FlatBus := flatMachine (fun _ => 3) [0xf3, 0xaa]

/-- `rep stosb` seven times in a row, with 0 in `ecx`. -/
def repsMachine : Machine FlatBus := flatMachine (fun _ => 0) (List.replicate 7 [0xf3, 0xaa]).flatten

/-- The failed assertion of a run. -/
def failure {σ α : Type} : Outcome σ α → Option Failure
  | .abort e => some e
  | _ => none

end Nemu
