/-
# The operand size at instruction boundaries

The prefix `0x66` sets `is_operand_size_16`, executes the next instruction and
clears the flag. An `INT` under the prefix leaves through `longjmp`, so that the
flag is still set when its handler starts. Every other instruction returns, and
leaves the flag as it was or clear.

Key definitions: `ModeIs`, `Restores`, `NoInt16`.
Key theorems: `execWhile_restores`, `step_clear_iff`, `operandSize16_iff`.
-/
import Nemu.Cpu.FlatBus
import Nemu.Cpu.Jumps

namespace Nemu

open Bytes Cmd Instr

set_option synthInstance.maxSize 10000

section OperandSize

variable {P : Type} {b : Bool}

/-- `is_operand_size_16` has this value. -/
def ModeIs (b : Bool) (m : Machine P) : Prop := m.ops.isOperandSize16 = b

instance : DecodeKept (P := P) (ModeIs b) where
  setOperand _ _ := ⟨fun _ h => h⟩
  copyOperand _ _ := ⟨fun _ h => h⟩
  setType _ _ := ⟨fun _ h => h⟩
  setSize _ _ := ⟨fun _ h => h⟩
  setLoc _ _ := ⟨fun _ h => h⟩
  setOpSreg _ _ := ⟨fun _ h => h⟩
  setVal _ _ := ⟨fun _ h => h⟩
  setOpcode _ := ⟨fun _ h => h⟩

instance : CpuKept (P := P) (ModeIs b) where
  setVal _ _ := ⟨fun _ h => h⟩
  setReg d _ _ := ⟨fun _ h => by cases d <;> exact h⟩
  setFlag _ _ _ := ⟨fun _ h => h⟩
  setEip _ := ⟨fun _ h => h⟩
  setGdtr _ := ⟨fun _ h => h⟩
  setIdtr _ := ⟨fun _ h => h⟩
  setCr0 _ := ⟨fun _ h => h⟩
  setCr3 _ := ⟨fun _ h => h⟩
  setState _ := ⟨fun _ h => h⟩
  setText _ := ⟨fun _ h => h⟩

instance : SregKept (P := P) (ModeIs b) := ⟨fun _ _ => ⟨fun _ h => h⟩, fun _ _ => ⟨fun _ h => h⟩⟩
instance (p : P) : Kept (ModeIs b) (Machine.setBus · p) := ⟨fun _ h => h⟩
instance (v : Word) : Kept (ModeIs (P := P) b) (Machine.setEflags · v) := ⟨fun _ h => h⟩
instance (f : Flag) (v : Bool) : Kept (ModeIs (P := P) b) (Machine.setFlag · f v) := ⟨fun _ h => h⟩

/-! ### What returns and what jumps -/

/-- A clear flag is clear when the command returns, and if it jumps the flag is
clear in any case. -/
class Restores {α : Type} (c : Cmd (Machine P) α) : Prop where
  ends : ∀ m, Ends (fun _ m' => ModeIs false m → ModeIs false m') (ModeIs false) (c m)

section Restores

variable {α β : Type} {c d : Cmd (Machine P) α} {k : α → Cmd (Machine P) β}

instance [hs : Straight c] [hk : Keeps (ModeIs false) c] : Restores c := by
  refine ⟨fun m => ?_⟩
  by_cases hm : ModeIs false m
  · exact (hk.ends m hm).mono (fun _ _ h _ => h) fun _ h => h
  · exact (hs.ends m).mono (fun _ _ _ h => absurd h hm) fun _ h => h.elim

instance Restores.bind [hc : Restores c] [hk : ∀ a, Restores (k a)] : Restores (c >>= k) :=
  ⟨fun m => (hc.ends m).bind fun a m' h => ((hk a).ends m').mono (fun _ _ h' hm => h' (h hm))
    fun _ h' => h'⟩

instance Restores.ite {p : Prop} [Decidable p] [hc : Restores c] [hd : Restores d] :
    Restores (if p then c else d) := by
  split
  · exact hc
  · exact hd

end Restores

variable [Bus P]

section Prefixes

variable {e : Helper P} [he : ∀ eip, Restores (e eip)] (fuel : ℕ) (eip : Word)

omit [Bus P] in
/-- After the prefix the flag is clear. -/
theorem operandSize_restores : Restores (operandSize e eip) := by
  refine ⟨fun m => ?_⟩
  unfold operandSize
  rw [write_bind_run]
  refine ((he (eip + 1)).ends _).bind fun len m' _ => ?_
  exact fun _ => rfl

omit [Bus P] in
theorem repLoop_restores (z : Bool) (count : ℕ) : Restores (repLoop e z eip fuel count) := by
  induction fuel generalizing count with
  | zero =>
    unfold repLoop
    infer_instance
  | succ fuel ih =>
    unfold repLoop
    infer_instance

theorem rep_restores : Restores (rep e fuel eip) := by
  have hloop := repLoop_restores (e := e) fuel eip false
  unfold rep
  infer_instance

omit [Bus P] in
theorem repnz_restores : Restores (repnz e fuel eip) := by
  have hloop := repLoop_restores (e := e) fuel eip true
  unfold repnz
  infer_instance

end Prefixes

/-- The instruction is no `INT` at operand size 16. -/
def NoInt16 : Guard P := fun opcode _ m => opcode.toNat = 0xcd → m.ops.isOperandSize16 = false

/-- Every instruction leaves the flag as it was, one that is not a prefix. -/
theorem instrAt_mode (opcode eip : Word) (hp : opcode.toNat ∉ [0x66, 0xf2, 0xf3]) :
    Keeps (ModeIs (P := P) b) (instrAt opcode eip) := by
  rcases opcode_cases opcode.toNat with h | h | h | ⟨h, -⟩ | ⟨h, -⟩
  · exact absurd h fun h => hp (by rw [h]; decide)
  · exact absurd h fun h => hp (by rw [h]; decide)
  · exact absurd h fun h => hp (by rw [h]; decide)
  · refine instrAt_loose (C := fun _ c => Keeps (ModeIs b) (c eip)) h ?_ ?_ ?_ ?_ ?_ ?_ ?_
    all_goals infer_instance
  · exact keeps_opcodeTable h inv 0 eip

/-- **The flag across `exec`.** -/
theorem execWhile_restores : ∀ fuel eip, Restores (execWhile (P := P) NoInt16 fuel eip) := by
  intro fuel
  induction fuel with
  | zero =>
    intro eip
    exact inferInstanceAs (Restores (outOfFuel : Cmd (Machine P) Word))
  | succ fuel ih =>
    intro eip
    unfold execWhile
    refine @Restores.bind _ _ _ _ _ inferInstance fun opcode => ?_
    refine @Restores.bind _ _ _ _ _ inferInstance fun _ => ⟨fun m => ?_⟩
    by_cases hG : NoInt16 opcode eip m
    · rw [asserting_pos hG]
      by_cases hint : opcode.toNat = 0xcd
      · -- the flag is clear, so that it does not matter whether `INT` returns
        rw [entry_opcodeTable (by rw [hint]; decide) _ inv fuel 0, ← instrAt]
        have hkeep := instrAt_mode (P := P) (b := false) opcode eip (by rw [hint]; decide)
        exact (hkeep.ends m (hG hint)).mono (fun _ _ h _ => h) fun _ h => h
      · by_cases hp : opcode.toNat ∈ [0x66, 0xf2, 0xf3]
        · simp only [List.mem_cons, List.not_mem_nil, or_false] at hp
          rcases hp with h | h | h
          · rw [h, entry_operandSize]
            exact (operandSize_restores eip).ends m
          · rw [h, entry_repnz]
            exact (repnz_restores fuel eip).ends m
          · rw [h, entry_rep]
            exact (rep_restores fuel eip).ends m
        · have hstraight := straight_opcodeTable (k := opcode.toNat)
            (by simp only [List.mem_cons, List.not_mem_nil, or_false] at hp ⊢; omega)
            (execWhile (P := P) NoInt16 fuel) fuel eip
          have hkeep := instrAt_mode (P := P) (b := false) opcode eip hp
          rw [instrAt, entry_opcodeTable hp inv (execWhile (P := P) NoInt16 fuel) 0 fuel] at hkeep
          exact Restores.ends m
    · rw [asserting_neg hG]
      trivial

/-! ### Where the flag is lost -/

/-- The outcome is a jump with the flag set. -/
def Leaks {α : Type} (o : Outcome (Machine P) α) : Prop := Ends (fun _ _ => False) (ModeIs true) o

omit [Bus P] in
theorem sticks_leaks : Sticks (fun _ : Machine P => True) fun _ _ o => Leaks o := by
  intro α β o o' k l h _
  cases o' with
  | ok a m => exact False.elim h
  | jump m => exact h
  | abort e => trivial
  | outOfFuel => trivial

/-- `INT` does not return. -/
theorem intI_leaks {eip : Word} {m : Machine P} (hm : ModeIs true m) : Leaks (intI eip m) := by
  have hkeep := Keeps.ends (c := intI eip) (E := fun _ => True) m hm
  unfold Leaks
  cases h : intI eip m with
  | ok a m' =>
    unfold intI at h
    obtain ⟨imm, m₁, -, h⟩ := bind_eq_ok h
    rw [read_bind_run, write_bind_run] at h
    exact absurd h raiseIntr_ne_ok
  | jump m' =>
    rw [h] at hkeep
    exact hkeep
  | abort e => trivial
  | outOfFuel => trivial

/-- Up to the first `INT` at operand size 16, which leaves with the flag set. -/
theorem execWhile_agree_leaks (fuel : ℕ) (eip : Word) :
    Agree (fun _ _ o => Leaks o) (execWhile (P := P) NoInt16 fuel eip)
      (execWhile (fun _ _ _ => True) fuel eip) := by
  refine execWhile_agree sticks_leaks (fun _ _ _ _ => trivial) (fun _ _ => inferInstance) ?_ fuel eip
  intro fuel opcode eip m _ hno
  obtain ⟨hop, hmode⟩ := Classical.not_imp.mp hno
  rw [hop, entry_intI]
  exact intI_leaks (Bool.eq_true_of_not_eq_false hmode)

/-! ### Steps and runs -/

section Steps

variable {C : Machine P → Prop} {D : P → P → Prop} {m m' : Machine P}

theorem execStepWhile_restores (fuel : ℕ) : Restores (execStepWhile (P := P) NoInt16 fuel) := by
  have hexec := execWhile_restores (P := P)
  unfold execStepWhile
  infer_instance

theorem execStepWhile_agree_leaks (fuel : ℕ) :
    Agree (fun _ _ o => Leaks o) (execStepWhile (P := P) NoInt16 fuel)
      (execStepWhile (fun _ _ _ => True) fuel) :=
  .bind_same fun eip => .bind sticks_leaks (execWhile_agree_leaks fuel eip) (fun _ => .refl _)
    fun _ => inferInstance

/-- The delivery of an interrupt leaves the flag. -/
theorem checkIntr_mode (h : checkIntr m = .jump m') : m'.ops.isOperandSize16 = m.ops.isOperandSize16 := by
  have hkeep : Keeps (ModeIs m.ops.isOperandSize16) (checkIntr (P := P)) := by
    unfold checkIntr
    infer_instance
  have hend := hkeep.ends m rfl
  rw [h] at hend
  exact hend

/-- Without an `INT` at operand size 16 the flag stays clear. -/
theorem Step.mode (hs : Step NoInt16 C D m m') (hm : m.ops.isOperandSize16 = false) :
    m'.ops.isOperandSize16 = false := by
  cases hs with
  | @next fuel m₁ p he hd hi =>
    have hend := (execStepWhile_restores fuel).ends m
    rw [he] at hend
    rw [checkIntr_ok hi]
    exact hend hm
  | @deliver fuel m₁ p he hd hc hi =>
    have hend := (execStepWhile_restores fuel).ends m
    rw [he] at hend
    rw [checkIntr_mode hi]
    exact hend hm
  | @trap fuel he =>
    have hend := (execStepWhile_restores fuel).ends m
    rw [he] at hend
    exact hend
  | @stop fuel m₁ p he hd hs hm' =>
    have hend := (execStepWhile_restores fuel).ends m
    rw [he] at hend
    rw [hm']
    exact hend hm

/-- **One step.** The flag is clear after it exactly if no `INT` was executed at
operand size 16. -/
theorem step_clear_iff (hs : Step (fun _ _ _ => True) C D m m') (hm : m.ops.isOperandSize16 = false) :
    m'.ops.isOperandSize16 = false ↔ Step NoInt16 C D m m' := by
  refine ⟨fun hm' => ?_, fun h => h.mode hm⟩
  cases hs with
  | @next fuel m₁ p he hd hi =>
    refine .next (((execStepWhile_agree_leaks fuel m).resolve_right fun h => ?_).trans he) hd hi
    rwa [he] at h
  | @deliver fuel m₁ p he hd hc hi =>
    refine .deliver (((execStepWhile_agree_leaks fuel m).resolve_right fun h => ?_).trans he) hd hc hi
    rwa [he] at h
  | @trap fuel he =>
    refine .trap (((execStepWhile_agree_leaks fuel m).resolve_right fun h => ?_).trans he)
    rw [he] at h
    exact Bool.false_ne_true (hm'.symm.trans h)
  | @stop fuel m₁ p he hd hs hstate =>
    refine .stop (((execStepWhile_agree_leaks fuel m).resolve_right fun h => ?_).trans he) hd hs hstate
    rwa [he] at h

/-- **The operand size at instruction boundaries.** The flag is clear at every
boundary of a run if and only if no step of it executes an `INT` at operand size
16; and while it is clear the instructions for both sizes are those for 32 bits. -/
theorem operandSize16_iff {run : ℕ → Machine P} {n : ℕ} (h₀ : (run 0).ops.isOperandSize16 = false)
    (hrun : ∀ i < n, Step (fun _ _ _ => True) C D (run i) (run (i + 1))) :
    ((∀ i ≤ n, (run i).ops.isOperandSize16 = false) ↔
      ∀ i < n, Step NoInt16 C D (run i) (run (i + 1))) ∧
    ∀ (m : Machine P) (h : Width → Helper P) (eip : Word), m.ops.isOperandSize16 = false →
      helperV h eip m = h .l eip m := by
  refine ⟨⟨fun h i hi => ?_, fun h i => ?_⟩, fun m h eip hm => ?_⟩
  · exact (step_clear_iff (hrun i hi) (h i hi.le)).mp (h (i + 1) hi)
  · induction i with
    | zero => exact fun _ => h₀
    | succ i ih => exact fun hi => (h i hi).mode (ih (Nat.le_of_succ_le hi))
  · unfold helperV
    rw [read_bind_run, hm]
    rfl

end Steps

end OperandSize

/-! ### An interrupt under the prefix -/

/-- `int $0x20` under the prefix at 0, and the gate of vector 0x20 at 32. -/
def leakMachine : Machine FlatBus :=
  let m := flatMachine (fun _ => 512)
    [0x66, 0xcd, 0x20, 0, 0, 0, 0, 0, 0, 0, 0, 0, 0, 0, 0, 0,
      0x40, 0, 0, 0, 0, 0, 0, 0, 0, 0, 0, 0, 0, 0, 0, 0,
      16, 0, 8, 0, 0, 0x8e, 0, 0]
  { m with cpu := { m.cpu with idtr := ⟨0, 0xffffff20⟩, gdtr := ⟨0, 40⟩ } }

/-- The state in which its handler starts. -/
def leakStart : Machine FlatBus := (jumped (execStep 2 leakMachine)).getD leakMachine

/-- `inc %ax` and `inc %eax`, from 0xffff. -/
def incMachine : Machine FlatBus := flatMachine (fun _ => 0xffff) [0x66, 0x40, 0x40]

/-- The state after `i` instructions. -/
def incRun : ℕ → Machine FlatBus
  | 0 => incMachine
  | i + 1 => stateD (incRun i) (execStep (2 - i) (incRun i))

/-- Both instructions, for every condition that they meet. -/
theorem incRun_while {G : Guard FlatBus} (hG : ∀ opcode ∈ [(0x66 : Word), 0x40], ∀ eip m, G opcode eip m) :
    execStepWhile G 2 (incRun 0) = execStep 2 (incRun 0) ∧ execStepWhile G 1 (incRun 1) = execStep 1 (incRun 1) := by
  have hprefix : value (instrFetch 0 1 incMachine) = some 0x66 := by decide +kernel
  let m := ((stateD incMachine (instrFetch 0 1 incMachine)).setOpcode 0x66).setOperandSize16 true
  have hword : value (instrFetch 1 1 m) = some 0x40 := by decide +kernel
  have hlong : value (instrFetch (incRun 1).eip 1 (incRun 1)) = some 0x40 := by decide +kernel
  have hfirst : ∃ m', ∀ G : Guard FlatBus, (∀ opcode ∈ [(0x66 : Word), 0x40], ∀ eip m, G opcode eip m) →
      execStepWhile G 2 (incRun 0) = .ok () m' :=
    ⟨_, fun G hG => execStepWhile_operandSize (ok_stateD hprefix incMachine) (hG _ (by simp) _ _) (ok_stateD hword m)
      (hG _ (by simp) _ _) (by decide) (ok_stateD (a := 1) (by decide +kernel) m)⟩
  have hsecond : ∃ m', ∀ G : Guard FlatBus, (∀ opcode ∈ [(0x66 : Word), 0x40], ∀ eip m, G opcode eip m) →
      execStepWhile G 1 (incRun 1) = .ok () m' :=
    ⟨_, fun G hG => execStepWhile_one (ok_stateD hlong m) (hG _ (by simp) _ _) (by decide)
      (ok_stateD (a := 1) (by decide +kernel) m)⟩
  obtain ⟨m₁, h₁⟩ := hfirst
  obtain ⟨m₂, h₂⟩ := hsecond
  rw [← execStepWhile_true, ← execStepWhile_true]
  exact ⟨(h₁ G hG).trans (h₁ _ fun _ _ _ _ => trivial).symm, (h₂ G hG).trans (h₂ _ fun _ _ _ _ => trivial).symm⟩

theorem incRun_step {G : Guard FlatBus} (hG : ∀ opcode ∈ [(0x66 : Word), 0x40], ∀ eip m, G opcode eip m) :
    ∀ i < 2, Step G (fun _ => True) (fun p p' => p' = p) (incRun i) (incRun (i + 1)) := by
  intro i hi
  obtain ⟨hfirst, hsecond⟩ := incRun_while hG
  have hintr : ∀ m : Machine FlatBus, Bus.INTR m.bus = false → checkIntr (m.setBus m.bus) = .ok () m := by
    intro m hm
    unfold checkIntr
    rw [read_bind_run, read_bind_run, if_neg fun h => Bool.false_ne_true (hm.symm.trans h.1)]
    rfl
  interval_cases i
  · exact .next (hfirst.trans (ok_stateD (by decide +kernel) (incRun 0))) rfl (hintr (incRun 1) (by decide +kernel))
  · exact .next (hsecond.trans (ok_stateD (by decide +kernel) (incRun 1))) rfl (hintr (incRun 2) (by decide +kernel))

/-- The prefix is for one instruction: `inc %ax` wraps around, and `inc %eax` does not. -/
theorem operandSize16_iff_inc : (∀ i ≤ 2, (incRun i).ops.isOperandSize16 = false) ∧
    (incRun 1).reg .l 0 = 0 ∧ (incRun 2).reg .l 0 = 1 := by
  have hno : ∀ opcode ∈ [(0x66 : Word), 0x40], ∀ eip (m : Machine FlatBus), NoInt16 opcode eip m := by
    intro opcode hop _ _ hint
    simp only [List.mem_cons, List.not_mem_nil, or_false] at hop
    rcases hop with rfl | rfl
    · exact absurd hint (by decide)
    · exact absurd hint (by decide)
  have hclear := (@operandSize16_iff FlatBus _ (fun _ => True) (fun p p' => p' = p) incRun 2 rfl
    (incRun_step fun _ _ _ _ => trivial)).1.mpr (incRun_step hno)
  exact ⟨hclear, by decide +kernel, by decide +kernel⟩

/-- The handler of `int $0x20` under the prefix starts with the flag set. -/
theorem operandSize16_leaks : leakMachine.ops.isOperandSize16 = false ∧
    Step (fun _ _ _ => True) (fun _ => True) (fun p p' => p' = p) leakMachine leakStart ∧
    leakStart.ops.isOperandSize16 = true := by
  have htrap : execStepWhile (fun _ _ _ => True) 2 leakMachine = .jump leakStart := by
    rw [execStepWhile_true]
    exact jump_getD (by decide +kernel) leakMachine
  exact ⟨rfl, .trap htrap, by decide +kernel⟩

end Nemu
