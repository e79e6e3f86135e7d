/-
# Runs in which every instruction meets a condition

`exec` may execute several instructions: those under a prefix. `execWhile G` is
`exec` as long as each of them meets `G`, a condition on its opcode, its address
and the state in which it starts. So what a step of the main loop does is said
by comparing it under two conditions.

Key definitions: `Guard`, `execWhile`, `execStepWhile`, `Step`.
Key theorems: `execWhile_agree`, `execWhile_or_exec`.
-/
import Nemu.Cpu.Ordinary

namespace Nemu

open Bytes Cmd Instr

set_option synthInstance.maxSize 10000

section Guarded

variable {P : Type} [Bus P]

/-- A condition on the opcode of an instruction, its address, and the state after
the opcode is fetched. -/
abbrev Guard (P : Type) : Type := Word → Word → Machine P → Prop

/-- `exec`, up to an instruction that does not meet the condition. -/
noncomputable def execWhile (G : Guard P) : ℕ → Helper P
  | 0 => fun _ => outOfFuel
  | fuel + 1 => fun eip => do
    let opcode ← instrFetch eip 1
    write (·.setOpcode opcode)
    asserting (G opcode eip) (entry (opcodeTable (execWhile G fuel) fuel) opcode.toNat eip)

set_option maxRecDepth 20000 in
/-- The entries that do not execute another instruction. -/
theorem entry_opcodeTable {k : ℕ} (hk : k ∉ [0x66, 0xf2, 0xf3]) (e e' : Helper P) (n n' : ℕ) :
    entry (opcodeTable e n) k = entry (opcodeTable e' n') k := by
  have h : without (opcodeTable e n) [0x66, 0xf2, 0xf3] =
      without (opcodeTable e' n') [0x66, 0xf2, 0xf3] := by
    unfold without opcodeTable
    simp only [List.foldl_cons, List.foldl_nil, List.set_cons_succ, List.set_cons_zero]
  calc
    entry (opcodeTable e n) k = entry (without (opcodeTable e n) [0x66, 0xf2, 0xf3]) k :=
      (entry_without hk _).symm
    _ = entry (without (opcodeTable e' n') [0x66, 0xf2, 0xf3]) k := by rw [h]
    _ = entry (opcodeTable e' n') k := entry_without hk _

set_option maxRecDepth 20000 in
theorem entry_operandSize (e : Helper P) (n : ℕ) : entry (opcodeTable e n) 0x66 = operandSize e := rfl

set_option maxRecDepth 20000 in
theorem entry_repnz (e : Helper P) (n : ℕ) : entry (opcodeTable e n) 0xf2 = repnz e n := rfl

set_option maxRecDepth 20000 in
theorem entry_intI (e : Helper P) (n : ℕ) : entry (opcodeTable e n) 0xcd = intI := rfl

set_option maxRecDepth 20000 in
theorem entry_rep (e : Helper P) (n : ℕ) : entry (opcodeTable e n) 0xf3 = rep e n := rfl

/-! ### Prefixes -/

section Prefixes

variable {I : Machine P → Prop} {E : Failure → Prop} [OpsKept I]
  {B : (β : Type) → Outcome (Machine P) β → Outcome (Machine P) β → Prop} {e e' : Helper P}

omit [Bus P] in
theorem operandSize_keeps (h : ∀ eip, Keeps I (e eip) E) (eip : Word) :
    Keeps I (operandSize e eip) E := by
  unfold operandSize
  infer_instance

omit [Bus P] in
theorem operandSize_agree (hB : Sticks I B) (h : ∀ eip, Agree B (e' eip) (e eip)) (eip : Word) :
    Agree B (operandSize e' eip) (operandSize e eip) :=
  .bind_same fun _ => .bind hB (h _) (fun _ => .refl _) fun _ => inferInstance

variable [CpuKept I]

omit [Bus P] [OpsKept I] [CpuKept I] in
instance [Allows E .assertion] (count : ℕ) : Keeps I (countUp (P := P) count) E := by
  unfold countUp
  infer_instance

omit [Bus P] [OpsKept I] in
instance [Allows E .assertion] (name count : ℕ) : Keeps I (printRep (P := P) name count) E := by
  unfold printRep
  infer_instance

omit [Bus P] [OpsKept I] in
theorem repLoop_keeps [Allows E .assertion] (h : ∀ eip, Keeps I (e eip) E) (z : Bool) (eip : Word)
    (fuel count : ℕ) : Keeps I (repLoop e z eip fuel count) E := by
  induction fuel generalizing count with
  | zero =>
    unfold repLoop
    infer_instance
  | succ fuel ih =>
    unfold repLoop
    infer_instance

omit [Bus P] [OpsKept I] in
theorem repLoop_agree (hB : Sticks I B) (hk : ∀ eip, Keeps I (e eip))
    (h : ∀ eip, Agree B (e' eip) (e eip)) (z : Bool) (eip : Word) (fuel count : ℕ) :
    Agree B (repLoop e' z eip fuel count) (repLoop e z eip fuel count) := by
  induction fuel generalizing count with
  | zero => exact .refl _
  | succ fuel ih =>
    have hloop := repLoop_keeps hk z eip fuel
    unfold repLoop
    refine .bind_same fun ecx => .ite (.refl _) (.bind hB (h _) (fun _ => ?_) fun _ => inferInstance)
    -- the count goes down, and the loop is left or goes on
    exact .bind_same fun count => .bind_same fun ecx => .bind_same fun _ => .bind_same fun opcode =>
      .bind_same fun zf => .ite (.refl _) (ih count)

omit [OpsKept I] in
theorem rep_keeps [hb : BusKept I E] (h : ∀ eip, Keeps I (e eip) E) (fuel : ℕ) (eip : Word) :
    Keeps I (rep e fuel eip) E := by
  have := hb.assertion
  have hloop := repLoop_keeps h false
  unfold rep
  infer_instance

omit [OpsKept I] in
theorem rep_agree (hB : Sticks I B) (hk : ∀ eip, Keeps I (e eip))
    (h : ∀ eip, Agree B (e' eip) (e eip)) (fuel : ℕ) (eip : Word) :
    Agree B (rep e' fuel eip) (rep e fuel eip) :=
  .bind_same fun _ => .ite (.bind hB (h _) (fun _ => .refl _) fun _ => inferInstance)
    (.bind hB (repLoop_agree hB hk h false eip fuel 0) (fun _ => .refl _) fun _ => inferInstance)

omit [Bus P] [OpsKept I] in
theorem repnz_keeps [Allows E .assertion] (h : ∀ eip, Keeps I (e eip) E) (fuel : ℕ) (eip : Word) :
    Keeps I (repnz e fuel eip) E := by
  have hloop := repLoop_keeps h true
  unfold repnz
  infer_instance

omit [Bus P] [OpsKept I] in
theorem repnz_agree (hB : Sticks I B) (hk : ∀ eip, Keeps I (e eip))
    (h : ∀ eip, Agree B (e' eip) (e eip)) (fuel : ℕ) (eip : Word) :
    Agree B (repnz e' fuel eip) (repnz e fuel eip) :=
  Agree.bind hB (repLoop_agree hB hk h true eip fuel 0) (fun _ => .refl _) fun _ => inferInstance

end Prefixes

/-! ### Every instruction of a run -/

/-- The opcodes of the instructions themselves among the special ones. -/
def loose : List ℕ := [0x0f, 0x8e, 0xcd, 0xcf, 0xea, 0xfa, 0xfb]

/-- A prefix, one of the special instructions, or an ordinary one. -/
theorem opcode_cases (k : ℕ) : k = 0x66 ∨ k = 0xf2 ∨ k = 0xf3 ∨
    (k ∈ loose ∧ k ∉ [0x66, 0xf2, 0xf3]) ∨ (k ∉ special ∧ k ∉ [0x66, 0xf2, 0xf3]) := by
  simp only [loose, special, List.mem_cons, List.not_mem_nil, or_false, not_or]
  omega

/-- What the table has at an opcode that is no prefix. -/
def instrAt (opcode : Word) : Helper P := entry (opcodeTable inv 0) opcode.toNat

set_option maxRecDepth 20000 in
/-- The special instructions at their opcodes. -/
theorem instrAt_loose {C : ℕ → Helper P → Prop} {opcode : Word} (h : opcode.toNat ∈ loose)
    (hesc : C 0x0f twoByteEsc) (hmov : C 0x8e movRm2s) (hint : C 0xcd intI) (hiret : C 0xcf iret)
    (hjmp : C 0xea (helperV jmpL)) (hcli : C 0xfa cli) (hsti : C 0xfb sti) :
    C opcode.toNat (instrAt opcode) := by
  unfold instrAt
  simp only [loose, List.mem_cons, List.not_mem_nil, or_false] at h
  rcases h with h | h | h | h | h | h | h <;> rw [h]
  · exact hesc
  · exact hmov
  · exact hint
  · exact hiret
  · exact hjmp
  · exact hcli
  · exact hsti

section Runs

variable {I : Machine P → Prop} {E : Failure → Prop} {G G' : Guard P}

/-- An invariant of the ordinary instructions that also survives the others, where
they meet the condition, is an invariant of every run. -/
theorem execWhile_keeps [OpsKept I] [CpuKept I] [hb : BusKept I E]
    (hloose : ∀ opcode eip m, opcode.toNat ∈ loose → G opcode eip m → I m →
      Ends (fun _ => I) I (instrAt opcode eip m) E) :
    ∀ fuel eip, Keeps I (execWhile G fuel eip) E := by
  have := hb.assertion
  intro fuel
  induction fuel with
  | zero =>
    intro eip
    exact inferInstanceAs (Keeps I (outOfFuel : Cmd (Machine P) Word) E)
  | succ fuel ih =>
    intro eip
    refine ⟨fun m hm => ?_⟩
    unfold execWhile
    refine (Keeps.ends m hm).bind fun opcode m hm => ?_
    rw [write_bind_run]
    have hm' : I (m.setOpcode opcode) := Kept.kept (g := (Machine.setOpcode · opcode)) m hm
    by_cases hG : G opcode eip (m.setOpcode opcode)
    · rw [asserting_pos hG]
      rcases opcode_cases opcode.toNat with hk | hk | hk | ⟨hk, hp⟩ | ⟨hk, -⟩
      · rw [hk, entry_operandSize]
        exact (operandSize_keeps ih eip).ends _ hm'
      · rw [hk, entry_repnz]
        exact (repnz_keeps ih fuel eip).ends _ hm'
      · rw [hk, entry_rep]
        exact (rep_keeps ih fuel eip).ends _ hm'
      · rw [entry_opcodeTable hp _ inv fuel 0]
        exact hloose opcode eip _ hk hG hm'
      · exact (keeps_opcodeTable hk _ fuel eip).ends _ hm'
    · rw [asserting_neg hG]
      exact hb.assertion.allowed

/-- Two conditions: the runs agree up to the first instruction that meets the
second only, and from there on what that instruction brings about. -/
theorem execWhile_agree [OpsKept I] [CpuKept I]
    {B : (β : Type) → Outcome (Machine P) β → Outcome (Machine P) β → Prop} (hB : Sticks I B)
    (hG : ∀ opcode eip m, G' opcode eip m → G opcode eip m)
    (hk : ∀ fuel eip, Keeps I (execWhile G fuel eip))
    (hfirst : ∀ fuel opcode eip m, G opcode eip m → ¬ G' opcode eip m →
      B Word (.abort .assertion) (entry (opcodeTable (execWhile G fuel) fuel) opcode.toNat eip m)) :
    ∀ fuel eip, Agree B (execWhile G' fuel eip) (execWhile G fuel eip) := by
  intro fuel
  induction fuel with
  | zero => exact fun eip => .refl _
  | succ fuel ih =>
    intro eip
    unfold execWhile
    refine .bind_same fun opcode => .bind_same fun _ m => ?_
    by_cases hg : G opcode eip m
    · by_cases hg' : G' opcode eip m
      · rw [asserting_pos hg, asserting_pos hg']
        rcases opcode_cases opcode.toNat with h | h | h | ⟨-, hp⟩ | ⟨-, hp⟩
        · rw [h, entry_operandSize, entry_operandSize]
          exact operandSize_agree hB ih eip m
        · rw [h, entry_repnz, entry_repnz]
          exact repnz_agree hB (hk fuel) ih fuel eip m
        · rw [h, entry_rep, entry_rep]
          exact rep_agree hB (hk fuel) ih fuel eip m
        · rw [entry_opcodeTable hp _ (execWhile G fuel) fuel fuel]
          exact .inl rfl
        · rw [entry_opcodeTable hp _ (execWhile G fuel) fuel fuel]
          exact .inl rfl
      · rw [asserting_pos hg, asserting_neg hg']
        exact .inr (hfirst fuel opcode eip m hg hg')
    · rw [asserting_neg hg, asserting_neg fun h => hg (hG opcode eip m h)]
      exact .inl rfl

/-- Without a condition it is `exec`. -/
theorem execWhile_true : ∀ fuel eip, execWhile (P := P) (fun _ _ _ => True) fuel eip = exec fuel eip := by
  intro fuel
  induction fuel with
  | zero => exact fun _ => rfl
  | succ fuel ih =>
    intro eip
    have hexec : execWhile (P := P) (fun _ _ _ => True) fuel = exec fuel := funext ih
    have htrue : ∀ c : Cmd (Machine P) Word, asserting (fun _ => True) c = c :=
      fun c => funext fun s => asserting_pos trivial
    unfold execWhile exec
    simp only [hexec, htrue]

/-- A run that meets the condition is a run of `exec`. -/
theorem execWhile_or_exec (fuel : ℕ) (eip : Word) (m : Machine P) :
    execWhile G fuel eip m = exec fuel eip m ∨ execWhile G fuel eip m = .abort .assertion := by
  rw [← execWhile_true]
  exact execWhile_agree (I := fun _ => True) (B := fun _ o _ => o = .abort .assertion)
    (fun _ _ _ _ _ _ h _ => by rw [h]; rfl) (fun _ _ _ _ => trivial) (fun _ _ => inferInstance)
    (fun _ _ _ _ _ _ => rfl) fuel eip m

end Runs

/-! ### The main loop -/

/-- `execStep`, up to an instruction that does not meet the condition. -/
noncomputable def execStepWhile (G : Guard P) (fuel : ℕ) : Cmd (Machine P) Unit := do
  let eip ← read (·.eip)
  let len ← execWhile G fuel eip
  let eip ← read (·.eip)
  write (·.setEip (eip + len))

theorem execStepWhile_true (fuel : ℕ) :
    execStepWhile (P := P) (fun _ _ _ => True) fuel = execStep fuel := by
  unfold execStepWhile execStep
  simp only [execWhile_true]

/-- A step of an instruction without a prefix. -/
theorem execStepWhile_one {G : Guard P} {m m₁ m₂ : Machine P} {opcode len : Word}
    (hf : instrFetch m.eip 1 m = .ok opcode m₁) (hG : G opcode m.eip (m₁.setOpcode opcode))
    (hk : opcode.toNat ∉ [0x66, 0xf2, 0xf3])
    (hi : instrAt opcode m.eip (m₁.setOpcode opcode) = .ok len m₂) :
    execStepWhile G 1 m = .ok () (m₂.setEip (m₂.eip + len)) := by
  unfold execStepWhile execWhile
  rw [read_bind_run, bind_run, bind_ok hf, write_bind_run, asserting_pos hG,
    entry_opcodeTable hk _ inv 0 0, ← instrAt, hi]
  rfl

/-- A step of an instruction with the prefix for operand size 16. -/
theorem execStepWhile_operandSize {G : Guard P} {m m₁ m₂ m₃ : Machine P} {opcode len : Word}
    (hf : instrFetch m.eip 1 m = .ok 0x66 m₁) (hG : G 0x66 m.eip (m₁.setOpcode 0x66))
    (hf' : instrFetch (m.eip + 1) 1 ((m₁.setOpcode 0x66).setOperandSize16 true) = .ok opcode m₂)
    (hG' : G opcode (m.eip + 1) (m₂.setOpcode opcode)) (hk : opcode.toNat ∉ [0x66, 0xf2, 0xf3])
    (hi : instrAt opcode (m.eip + 1) (m₂.setOpcode opcode) = .ok len m₃) :
    execStepWhile G 2 m = .ok () ((m₃.setOperandSize16 false).setEip (m₃.eip + (len + 1))) := by
  have hexec : execWhile G 1 (m.eip + 1) ((m₁.setOpcode 0x66).setOperandSize16 true) = .ok len m₃ := by
    unfold execWhile
    rw [bind_ok hf', write_bind_run, asserting_pos hG', entry_opcodeTable hk _ inv 0 0, ← instrAt, hi]
  have hprefix : execWhile G 2 m.eip m = .ok (len + 1) (m₃.setOperandSize16 false) := by
    have hentry : entry (opcodeTable (execWhile G 1) 1) (BitVec.toNat (0x66 : Word)) = operandSize (execWhile G 1) :=
      entry_operandSize _ 1
    unfold execWhile
    rw [bind_ok hf, write_bind_run, asserting_pos hG, hentry]
    unfold operandSize
    rw [write_bind_run, bind_ok hexec]
    rfl
  rw [execStepWhile, read_bind_run, bind_ok hprefix]
  rfl

/-- One round of the loop of `cpu_exec`, for instructions that meet `G`, devices
that change the bus as `D` says (`device_update`), and interrupts delivered in
states that meet `C`. When the program stops, `cpu_exec` returns before the check
of `INTR`, and is called again. -/
inductive Step (G : Guard P) (C : Machine P → Prop) (D : P → P → Prop) (m m' : Machine P) : Prop
  | next {fuel : ℕ} {m₁ : Machine P} {p : P} (he : execStepWhile G fuel m = .ok () m₁)
      (hd : D m₁.bus p) (hi : checkIntr (m₁.setBus p) = .ok () m')
  | deliver {fuel : ℕ} {m₁ : Machine P} {p : P} (he : execStepWhile G fuel m = .ok () m₁)
      (hd : D m₁.bus p) (hc : C (m₁.setBus p)) (hi : checkIntr (m₁.setBus p) = .jump m')
  | trap {fuel : ℕ} (he : execStepWhile G fuel m = .jump m')
  | stop {fuel : ℕ} {m₁ : Machine P} {p : P} (he : execStepWhile G fuel m = .ok () m₁)
      (hd : D m₁.bus p) (hs : m₁.state ≠ .running) (hm : m' = (m₁.setBus p).setState .running)

/-- `raise_intr` up to the load of `cs`: the frame is pushed, and the gate read. -/
def intrFrame (no : Byte) : Cmd (Machine P) (Word × Word) := do
  let esp ← read (·.reg .l rESP)
  write (·.setReg .l rESP (esp - 4))
  let eflags ← read (·.cpu.eflags)
  swaddrWrite (esp - 4) 4 eflags 2
  write (·.setReg .l rESP (esp - 4 - 4))
  let cs ← read fun m : Machine P => (m.cpu.sreg 1).selector
  swaddrWrite (esp - 4 - 4) 4 (cs.setWidth 32) 2
  write (·.setReg .l rESP (esp - 4 - 4 - 4))
  let eip ← read (·.eip)
  swaddrWrite (esp - 4 - 4 - 4) 4 eip 2
  let idt ← read fun m : Machine P => m.cpu.idtr.base
  let gate := idt + 8 * no.setWidth 32
  let selector ← lnaddrRead (gate + 2) 2
  return (gate, selector)

/-- The rest of `raise_intr`, before the jump to the main loop. -/
def intrTarget (gate : Word) : Cmd (Machine P) Unit := do
  let base ← read fun m : Machine P => (m.cpu.sreg 1).cache.base
  let offset1 ← lnaddrRead gate 2
  let offset2 ← lnaddrRead (gate + 6) 2
  let offset1 := Width.trunc .w offset1
  let offset2 := Width.trunc .w offset2
  write (·.setEip (base + (offset2 <<< 16 ||| offset1)))

theorem raiseIntr_eq (no : Byte) : raiseIntr (P := P) no = (do
    let g ← intrFrame no
    loadSreg 1 (g.2.setWidth 16)
    intrTarget g.1) >>= fun _ => jump := by
  unfold raiseIntr intrFrame intrTarget
  simp only [bind_assoc_cmd, pure_bind_cmd]

instance (no : Byte) : Straight (intrFrame (P := P) no) := by
  unfold intrFrame
  dsimp only
  infer_instance

section Intr

variable {I : Machine P → Prop} {E : Failure → Prop} [BusKept I E]

instance (no : Byte) [∀ d i v, Kept I (Machine.setReg · d i v)] : Keeps I (intrFrame no) E := by
  unfold intrFrame
  dsimp only
  infer_instance

instance (gate : Word) [∀ v, Kept I (Machine.setEip · v)] : Keeps I (intrTarget gate) E := by
  unfold intrTarget
  dsimp only
  infer_instance

end Intr

/-- `raise_intr` does not return. -/
theorem raiseIntr_ne_ok {no : Byte} {m m' : Machine P} {a : Word} : raiseIntr no m ≠ .ok a m' := by
  rw [raiseIntr_eq]
  intro h
  obtain ⟨_, _, -, h⟩ := bind_eq_ok h
  exact nomatch h

/-- Without an interrupt to deliver, the check changes nothing. -/
theorem checkIntr_ok {m m' : Machine P} (h : checkIntr m = .ok () m') : m' = m := by
  unfold checkIntr at h
  rw [read_bind_run, read_bind_run] at h
  by_cases hi : Bus.INTR m.bus = true ∧ m.flag .IF = true
  · rw [if_pos hi, read_bind_run] at h
    obtain ⟨_, m₁, -, h⟩ := bind_eq_ok h
    obtain ⟨_, m₂, hraise, -⟩ := bind_eq_ok h
    exact absurd hraise raiseIntr_ne_ok
  · rw [if_neg hi] at h
    injection h with _ h
    exact h.symm

/-- An interrupt is delivered when it is requested and allowed: it is
acknowledged and raised. -/
theorem checkIntr_jump {m m' : Machine P} (h : checkIntr m = .jump m') :
    Bus.INTR m.bus = true ∧ m.flag .IF = true ∧ ∃ m₁, bus Bus.i8259AckIntr m = .ok () m₁ ∧
      raiseIntr (Bus.i8259QueryIntr m.bus) m₁ = .jump m' := by
  unfold checkIntr at h
  rw [read_bind_run, read_bind_run] at h
  by_cases hi : Bus.INTR m.bus = true ∧ m.flag .IF = true
  · rw [if_pos hi, read_bind_run] at h
    rcases bind_eq_jump h with hack | ⟨_, m₁, hack, h⟩
    · exact absurd hack access_ne_jump
    · rcases bind_eq_jump h with hraise | ⟨_, m₂, -, h⟩
      · exact ⟨hi.1, hi.2, m₁, hack, hraise⟩
      · exact nomatch h
  · rw [if_neg hi] at h
    exact nomatch h

end Guarded

end Nemu
