/-
# Which interrupts are delivered during a handler

`raise_intr` goes through a gate without a look at its type, and leaves `IF` as
it was. So after a hardware interrupt was delivered `IF` is still set, and the
next request that the check of `INTR` finds is delivered too, until the handler
executes `cli`.

Key definitions: `NoUnmask`, `HandlerRun`, `gateType`.
Key theorems: `raiseIntr_flag`, `HandlerRun.flag`, `intr_masked_iff`.
-/
import Nemu.Cpu.FlatBus
import Nemu.Cpu.Guarded

namespace Nemu

open Bytes Cmd Instr

set_option synthInstance.maxSize 10000

section IntrMask

variable {P : Type} {b : Bool}

/-! ### What changes `IF` -/

/-- `IF` has this value. -/
abbrev IfIs (b : Bool) : Machine P → Prop := OnCpu fun c => c.flag .IF = b

instance : CpuKept (P := P) (IfIs b) where
  setVal _ _ := ⟨fun _ h => h⟩
  setReg d _ _ := ⟨fun _ h => by cases d <;> exact h⟩
  setFlag f v hf := ⟨fun m h => by
    have hother : (m.setFlag f v).flag .IF = m.flag .IF := by
      rw [Machine.flag_setFlag, if_neg hf.symm]
    exact hother.trans h⟩
  setEip _ := ⟨fun _ h => h⟩
  setGdtr _ := ⟨fun _ h => h⟩
  setIdtr _ := ⟨fun _ h => h⟩
  setCr0 _ := ⟨fun _ h => h⟩
  setCr3 _ := ⟨fun _ h => h⟩
  setState _ := ⟨fun _ h => h⟩
  setText _ := ⟨fun _ h => h⟩

instance : SregKept (P := P) (IfIs b) := ⟨fun _ _ => ⟨fun _ h => h⟩, fun _ _ => ⟨fun _ h => h⟩⟩

variable [Bus P]

/-- `raise_intr` leaves `IF` as it was, whatever the type of the gate. -/
theorem raiseIntr_flag {no : Byte} {m m' : Machine P} (h : raiseIntr no m = .jump m') :
    m'.flag .IF = m.flag .IF := by
  have hkeep := Keeps.ends (c := raiseIntr no) (I := IfIs (m.flag .IF)) (E := fun _ => True) m rfl
  rw [h] at hkeep
  exact hkeep

/-- The instruction does not set `IF`: it is neither `sti` nor `iret`. -/
def NoUnmask : Guard P := fun opcode _ _ => opcode.toNat ≠ 0xfb ∧ opcode.toNat ≠ 0xcf

/-- And it is not `cli`. -/
def NoCli : Guard P := fun opcode eip m => NoUnmask opcode eip m ∧ opcode.toNat ≠ 0xfa

/-- Of the special instructions that are left, `cli` clears `IF` and the others
leave it. -/
theorem loose_flag {opcode eip : Word} {m : Machine P} (hk : opcode.toNat ∈ loose)
    (hG : NoUnmask opcode eip m) (hcli : opcode.toNat = 0xfa → b = false)
    (h : opcode.toNat = 0xfa ∨ IfIs b m) : Ends (fun _ => IfIs b) (IfIs b) (instrAt opcode eip m) := by
  refine instrAt_loose (C := fun k c => opcode.toNat = k → Ends (fun _ => IfIs b) (IfIs b) (c eip m))
    hk ?_ ?_ ?_ ?_ ?_ ?_ ?_ rfl
  all_goals intro hop; rw [hop] at h
  · exact Keeps.ends m (h.resolve_left (by decide))
  · exact Keeps.ends m (h.resolve_left (by decide))
  · exact Keeps.ends m (h.resolve_left (by decide))
  · exact absurd hop hG.2
  · exact Keeps.ends m (h.resolve_left (by decide))
  · have hclear : (m.setFlag .IF false).flag .IF = b := by
      rw [Machine.flag_setFlag, if_pos rfl, hcli hop]
    exact hclear
  · exact absurd hop hG.1

/-- A clear `IF` stays clear. -/
theorem execWhile_masked (fuel : ℕ) (eip : Word) :
    Keeps (IfIs false) (execWhile (P := P) NoUnmask fuel eip) :=
  execWhile_keeps (fun _ _ _ hk hG h => loose_flag hk hG (fun _ => rfl) (.inr h)) fuel eip

/-- And a set one stays set until `cli`. -/
theorem execWhile_unmasked (fuel : ℕ) (eip : Word) :
    Keeps (IfIs true) (execWhile (P := P) NoCli fuel eip) :=
  execWhile_keeps (fun _ _ _ hk hG h => loose_flag hk hG.1 (fun h => absurd h hG.2) (.inr h)) fuel eip

/-- After `cli` the flag is clear. -/
theorem execStepWhile_cli (fuel : ℕ) :
    Agree (fun _ _ o => Ends (fun _ => IfIs false) (IfIs false) o)
      (execStepWhile (P := P) NoCli fuel) (execStepWhile NoUnmask fuel) := by
  have hB := sticks_ends (IfIs (P := P) false)
  have hrun : ∀ fuel eip, Agree (fun _ _ o => Ends (fun _ => IfIs false) (IfIs false) o)
      (execWhile (P := P) NoCli fuel eip) (execWhile NoUnmask fuel eip) := by
    refine execWhile_agree hB (fun _ _ _ h => h.1) execWhile_masked fun fuel opcode eip m hG hG' => ?_
    have hop : opcode.toNat = 0xfa := by_contra fun h => hG' ⟨hG, h⟩
    rw [entry_opcodeTable (by rw [hop]; decide) _ inv fuel 0]
    exact loose_flag (by rw [hop]; decide) hG (fun _ => rfl) (.inl hop)
  exact .bind_same fun eip => .bind hB (hrun fuel eip) (fun _ => .refl _) fun _ => inferInstance

/-! ### The run of a handler -/

/-- A run from the delivery of an interrupt on, without `sti` and `iret` and
without another delivery; the devices change the bus as `D` says. `L` holds once
`cli` has been executed. -/
inductive HandlerRun (D : P → P → Prop) : Prop → Machine P → Prop
  | start {m m₀ : Machine P} (hi : checkIntr m = .jump m₀) : HandlerRun D False m₀
  | step {L : Prop} {m m' : Machine P} (h : HandlerRun D L m)
      (hs : Step NoUnmask (fun _ => False) D m m') :
    HandlerRun D (L ∨ ¬ Step NoCli (fun _ => False) D m m') m'

/-- The instructions of a step decide the value of `IF` after it, and under which
conditions it can be taken. -/
theorem Step.flag {G : Guard P} {D : P → P → Prop} {m m' : Machine P}
    (hs : Step G (fun _ => False) D m m') :
    ∃ fuel, (∀ G', execStepWhile G' fuel m = execStepWhile G fuel m → Step G' (fun _ => False) D m m') ∧
      ∀ b, Ends (fun _ => IfIs b) (IfIs b) (execStepWhile G fuel m) → IfIs b m' := by
  cases hs with
  | @next fuel m₁ p he hd hi =>
    refine ⟨fuel, fun G' heq => .next (heq.trans he) hd hi, fun b h => ?_⟩
    rw [he] at h
    rw [checkIntr_ok hi]
    exact h
  | deliver _ _ hc _ => exact hc.elim
  | @trap fuel he =>
    refine ⟨fuel, fun G' heq => .trap (heq.trans he), fun b h => ?_⟩
    rwa [he] at h
  | @stop fuel m₁ p he hd hs hm =>
    refine ⟨fuel, fun G' heq => .stop (heq.trans he) hd hs hm, fun b h => ?_⟩
    rw [he] at h
    rw [hm]
    exact h

/-- An interrupt is delivered only if `IF` is set, and stays set then. -/
theorem checkIntr_flag {m m' : Machine P} (hi : checkIntr m = .jump m') : m'.flag .IF = true := by
  obtain ⟨-, hif, m₁, hack, hraise⟩ := checkIntr_jump hi
  have hkeep := Keeps.ends (c := bus Bus.i8259AckIntr) (I := IfIs true) (E := fun _ => True) m hif
  rw [hack] at hkeep
  exact (raiseIntr_flag hraise).trans hkeep

theorem execStepWhile_masked (fuel : ℕ) : Keeps (IfIs false) (execStepWhile (P := P) NoUnmask fuel) := by
  have hexec := execWhile_masked (P := P)
  unfold execStepWhile
  infer_instance

theorem execStepWhile_unmasked (fuel : ℕ) : Keeps (IfIs true) (execStepWhile (P := P) NoCli fuel) := by
  have hexec := execWhile_unmasked (P := P)
  unfold execStepWhile
  infer_instance

/-- During a handler `IF` is clear exactly after `cli`. -/
theorem HandlerRun.flag {D : P → P → Prop} {L : Prop} {m : Machine P} (h : HandlerRun D L m) :
    (L → IfIs false m) ∧ (¬ L → IfIs true m) := by
  induction h with
  | start hi => exact ⟨False.elim, fun _ => checkIntr_flag hi⟩
  | @step L m m' h hs ih =>
    constructor
    · intro hL
      obtain ⟨fuel, hstep, hflag⟩ := hs.flag
      apply hflag
      by_cases hl : L
      · exact (execStepWhile_masked fuel).ends m (ih.1 hl)
      · exact (execStepWhile_cli fuel m).resolve_left fun heq => hL.resolve_left hl (hstep NoCli heq)
    · intro hL
      obtain ⟨hl, hno⟩ := not_or.mp hL
      obtain ⟨fuel, -, hflag⟩ := (not_not.mp hno).flag
      exact hflag true ((execStepWhile_unmasked fuel).ends m (ih.2 hl))

/-- The check delivers an interrupt exactly if it finds `IF` and a request. -/
theorem checkIntr_ok_iff {m : Machine P} : checkIntr m = .ok () m ↔
    m.flag .IF = false ∨ Bus.INTR m.bus = false := by
  constructor
  · intro h
    by_contra hno
    obtain ⟨hif, hintr⟩ := not_or.mp hno
    unfold checkIntr at h
    rw [read_bind_run, read_bind_run, if_pos (by simpa using And.intro hintr hif), read_bind_run] at h
    obtain ⟨_, m₁, -, h⟩ := bind_eq_ok h
    obtain ⟨_, m₂, hraise, -⟩ := bind_eq_ok h
    exact raiseIntr_ne_ok hraise
  · intro h
    unfold checkIntr
    rw [read_bind_run, read_bind_run, if_neg]
    · rfl
    · intro hi
      rcases h with h | h
      · exact Bool.false_ne_true (h.symm.trans hi.2)
      · exact Bool.false_ne_true (h.symm.trans hi.1)

/-- In a handler that has executed neither `sti` nor `iret`, the check after an
instruction delivers no interrupt exactly if `cli` was executed or `INTR` is low;
and a gate of either type leaves `IF` as it was. -/
theorem intr_masked_iff {D : P → P → Prop} {L : Prop} {m m₁ : Machine P} {fuel : ℕ} {p : P}
    (h : HandlerRun D L m) (he : execStepWhile NoUnmask fuel m = .ok () m₁) :
    (checkIntr (m₁.setBus p) = .ok () (m₁.setBus p) ↔
      (L ∨ execStepWhile NoCli fuel m ≠ execStepWhile NoUnmask fuel m) ∨ Bus.INTR p = false) ∧
    ∀ no m' m'', raiseIntr (P := P) no m' = .jump m'' → m''.flag .IF = m'.flag .IF := by
  refine ⟨?_, fun no m' m'' => raiseIntr_flag⟩
  rw [checkIntr_ok_iff]
  apply or_congr_left
  constructor
  · intro hif
    by_contra hno
    obtain ⟨hl, heq⟩ := not_or.mp hno
    have hset := (execStepWhile_unmasked fuel).ends m (h.flag.2 hl)
    rw [not_not.mp heq, he] at hset
    exact Bool.false_ne_true (hif.symm.trans hset)
  · intro hcli
    have hclear : Ends (fun _ => IfIs false) (IfIs false) (execStepWhile NoUnmask fuel m) := by
      by_cases hl : L
      · exact (execStepWhile_masked fuel).ends m (h.flag.1 hl)
      · exact (execStepWhile_cli fuel m).resolve_left (hcli.resolve_left hl)
    rw [he] at hclear
    exact hclear

end IntrMask

/-! ### Two requests -/

/-- The type of a gate, as the processor reads it. -/
def gateType (no : Byte) (m : Machine FlatBus) : Option Word :=
  (value (lnaddrRead (m.cpu.idtr.base + 8 * no.setWidth 32 + 5) 1 m)).map (· &&& 0xf)

/-- An interrupt gate for vector 0x20 at 32, and its handler at 16. -/
def gateMemory : List Byte :=
  [0x90, 0, 0, 0, 0, 0, 0, 0, 0, 0, 0, 0, 0, 0, 0, 0,
    0x90, 0, 0, 0, 0, 0, 0, 0, 0, 0, 0, 0, 0, 0, 0, 0,
    16, 0, 8, 0, 0, 0x8e, 0, 0]

/-- `IF` is set, and vector 0x20 is requested. -/
def gateMachine : Machine FlatBus :=
  let m := flatMachine (fun _ => 512) gateMemory
  { m with
    cpu := { m.cpu with eflags := 0x200, idtr := ⟨0, 0xffffff20⟩, gdtr := ⟨0, 40⟩ }
    bus := ⟨m.bus.mem, some 0x20⟩ }

/-- The state in which the handler starts. -/
def handlerStart : Machine FlatBus := (jumped (checkIntr gateMachine)).getD gateMachine

/-- And the state after its first instruction. -/
def handlerNext : Machine FlatBus :=
  let m := (stateD handlerStart (instrFetch handlerStart.eip 1 handlerStart)).setOpcode 0x90
  m.setEip (m.eip + 1)

theorem checkIntr_gate : checkIntr gateMachine = .jump handlerStart := rfl

theorem handler_step : execStepWhile NoUnmask 1 handlerStart = .ok () handlerNext := by
  have hfetch : value (instrFetch handlerStart.eip 1 handlerStart) = some 0x90 := by decide +kernel
  exact execStepWhile_one (ok_stateD hfetch handlerStart) ⟨by decide, by decide⟩ (by decide) rfl

/-- Without another request the first instruction of the handler is not interrupted. -/
theorem intr_masked_iff_quiet : checkIntr (handlerNext.setBus handlerNext.bus) =
    .ok () (handlerNext.setBus handlerNext.bus) :=
  ((intr_masked_iff (D := fun _ _ => True) (.start checkIntr_gate) handler_step).1).mpr
    (.inr (by decide +kernel))

/-- A second request, right after that instruction, is delivered, though the gate
is an interrupt gate. -/
theorem intr_not_masked : gateType 0x20 gateMachine = some 0xe ∧
    checkIntr gateMachine = .jump handlerStart ∧
    execStepWhile NoUnmask 1 handlerStart = .ok () handlerNext ∧
    ∃ m, checkIntr (handlerNext.setBus ⟨handlerNext.bus.mem, some 0x20⟩) = .jump m :=
  ⟨by decide +kernel, checkIntr_gate, handler_step, exists_jump (by decide +kernel)⟩

end Nemu
