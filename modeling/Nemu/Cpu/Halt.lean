/-
# HLT and the interrupt that ends it

`hlt` tests `INTR` and, as long as nothing is pending, moves `eip` back, so that it
is executed again. `cpu_exec` tests `INTR` a second time, after `device_update`.
An interrupt that comes between the two tests is delivered with `eip` at the `hlt`
itself: the handler comes back to it.

Key definitions: `Finds`, `Waits`.
Key theorems: `hlt_eip`, `Waits.eip`, `raiseIntr_pushed`, `hlt_wakes_iff`.
-/
import Nemu.Cpu.Vectoring

namespace Nemu

open Bytes Cmd Instr WordMem

set_option synthInstance.maxSize 10000

section Halt

variable {P : Type} [Bus P] {D : P → P → Prop} {fuel : ℕ} {found : Bool} {m m' m₁ m₂ : Machine P}

/-- The instruction is `hlt`, and it finds `INTR` like this. -/
def Finds (found : Bool) : Guard P := fun opcode _ m => opcode = 0xf4 ∧ Bus.INTR m.bus = found

/-- The processor waits: in each round `hlt` finds no interrupt pending, and none is
delivered. One may become pending all the same when the program stops before the
check of `INTR`. -/
inductive Waits (D : P → P → Prop) (m : Machine P) : Machine P → Prop
  | start : Waits D m m
  | round {m₁ m₂ : Machine P} (h : Waits D m m₁) (hs : Step (Finds false) (fun _ => False) D m₁ m₂) :
      Waits D m m₂

set_option maxRecDepth 20000 in
theorem entry_hlt (e : Helper P) (n : ℕ) : entry (opcodeTable e n) 0xf4 = hlt := rfl

/-- **`hlt`** goes on to the next instruction if it finds an interrupt pending, and
stays where it is if not. It does not jump. -/
theorem hlt_ends : Ends (fun _ (m₁ : Machine P) => m₁.eip = if found then m.eip + 1 else m.eip)
    (fun _ => False) (execStepWhile (Finds found) fuel m) := by
  unfold execStepWhile
  rw [read_bind_run]
  refine Ends.bind (Q := fun len m₁ => len = 1 ∧ m₁.eip = if found then m.eip else m.eip - 1) ?_ ?_
  · cases fuel with
    | zero => trivial
    | succ fuel =>
      unfold execWhile
      cases hfetch : instrFetch m.eip 1 m with
      | abort e =>
        rw [bind_run, hfetch]
        trivial
      | outOfFuel =>
        rw [bind_run, hfetch]
        trivial
      | jump m₀ =>
        unfold instrFetch at hfetch
        rw [swaddrRead_run] at hfetch
        split at hfetch <;> cases hfetch
      | ok opcode m₀ =>
        have heip : m₀.eip = m.eip := by
          rw [(swaddrRead_ok hfetch).1]
          rfl
        rw [bind_ok hfetch, write_bind_run]
        by_cases hfinds : Finds found opcode m.eip (m₀.setOpcode opcode)
        · obtain ⟨rfl, hintr⟩ := id hfinds
          rw [asserting_pos hfinds, show (0xf4 : Word).toNat = 0xf4 from rfl, entry_hlt]
          unfold hlt
          rw [read_bind_run, read_bind_run, hintr]
          cases found with
          | true => exact ⟨rfl, heip⟩
          | false => exact ⟨rfl, congrArg (· - 1) heip⟩
        · rw [asserting_neg hfinds]
          trivial
  · rintro len m₁ ⟨rfl, heip⟩
    rw [read_bind_run]
    show m₁.eip + 1 = _
    rw [heip]
    cases found with
    | true => rfl
    | false => exact BitVec.sub_add_cancel _ _

/-- A round in which it finds nothing, and nothing is delivered. -/
theorem Step.waits (h : Step (Finds false) (fun _ => False) D m m') : m'.eip = m.eip := by
  have hend : ∀ fuel, Ends (fun _ (m₁ : Machine P) => m₁.eip = m.eip) (fun _ => False)
      (execStepWhile (Finds false) fuel m) := fun fuel => hlt_ends
  cases h with
  | @next fuel m₁ p he hd hi =>
    have heip := hend fuel
    rw [he] at heip
    rw [checkIntr_ok hi]
    exact heip
  | deliver he hd hc hi => exact hc.elim
  | @trap fuel he =>
    have hjump := hend fuel
    rw [he] at hjump
    exact hjump.elim
  | @stop fuel m₁ p he hd hs hm =>
    have heip := hend fuel
    rw [he] at heip
    rw [hm]
    exact heip

/-- While it waits, `eip` is that of the `hlt`. -/
theorem Waits.eip (h : Waits D m m') : m'.eip = m.eip := by
  induction h with
  | start => rfl
  | round _ hs ih => rw [hs.waits, ih]

variable [Ram P]

/-- The word that a delivered interrupt leaves at the top of the stack is `eip`. -/
theorem checkIntr_pushed (h : checkIntr m = .jump m') :
    peek m'.mem (m'.cpu.linear (m'.reg .l rESP) 2) 4 = m.eip := by
  obtain ⟨-, -, m₀, hack, hraise⟩ := checkIntr_jump h
  have heip : m₀.eip = m.eip := by
    unfold bus access at hack
    dsimp only at hack
    cases hp : Bus.i8259AckIntr m.bus with
    | none =>
      rw [hp] at hack
      exact nomatch hack
    | some r =>
      rw [hp] at hack
      injection hack with _ hm
      rw [← hm]
      rfl
  have h₀ : Sim [] m₀.ops.isOperandSize16 (m₀.cpu, m₀.mem) m₀ := ⟨rfl, Only.refl _ _, rfl, rfl⟩
  have hsim := raiseIntr_sim (E := fun _ => True) (Bus.i8259QueryIntr m.bus) h₀
  rw [setjmp, hraise] at hsim
  exact (vectored_stack hsim).1.trans heip

/-- **The interrupt that ends an `hlt`** comes back to the next instruction if and
only if `hlt` found it pending, in the round in which it is delivered. Otherwise it
became pending after that, and comes back to the `hlt`. -/
theorem hlt_wakes_iff {p : P} (hw : Waits D m m') (he : execStepWhile (Finds found) fuel m' = .ok () m₁)
    (hi : checkIntr (m₁.setBus p) = .jump m₂) :
    (peek m₂.mem (m₂.cpu.linear (m₂.reg .l rESP) 2) 4 = m.eip + 1 ↔ found = true) ∧
      (found = false → peek m₂.mem (m₂.cpu.linear (m₂.reg .l rESP) 2) 4 = m.eip) := by
  have hend : Ends (fun _ (m₁ : Machine P) => m₁.eip = if found then m'.eip + 1 else m'.eip)
    (fun _ => False) (execStepWhile (Finds found) fuel m') := hlt_ends
  rw [he] at hend
  have heip : m₁.eip = if found then m.eip + 1 else m.eip := by rw [← hw.eip]; exact hend
  have hpushed : peek m₂.mem (m₂.cpu.linear (m₂.reg .l rESP) 2) 4 = m₁.eip :=
    checkIntr_pushed (m := m₁.setBus p) hi
  rw [hpushed, heip]
  cases found with
  | true => exact ⟨⟨fun _ => rfl, fun _ => rfl⟩, nofun⟩
  | false =>
    refine ⟨⟨fun h => ?_, nofun⟩, fun _ => rfl⟩
    rw [if_neg Bool.false_ne_true] at h
    exact absurd h (by bv_omega)

end Halt

/-- An `hlt` at address 0, with interrupts enabled and perhaps one pending. -/
def hltMachine (request : Option Byte) : Machine FlatBus :=
  let m := flatMachine (fun _ => 0x100) [0xf4]
  { m with
    cpu := { m.cpu with eflags := 0x200 }
    bus := { m.bus with request := request } }

/-- It was pending before the `hlt`. -/
theorem hlt_wakes_iff_pending : ∃ m₁ m₂, execStep 1 (hltMachine (some 0x20)) = .ok () m₁ ∧
    checkIntr (m₁.setBus m₁.bus) = .jump m₂ ∧
    peek m₂.mem (m₂.cpu.linear (m₂.reg .l rESP) 2) 4 = (hltMachine (some 0x20)).eip + 1 := by
  generalize hm : hltMachine (some 0x20) = m
  have hfetch : instrFetch m.eip 1 m = .ok 0xf4 m := by subst hm; rfl
  have hfinds : Finds true 0xf4 m.eip (m.setOpcode 0xf4) := ⟨rfl, by subst hm; rfl⟩
  have hrun : instrAt 0xf4 m.eip (m.setOpcode 0xf4) = .ok 1 (m.setOpcode 0xf4) := by subst hm; rfl
  have hwhile : execStepWhile (Finds true) 1 m = .ok () ((m.setOpcode 0xf4).setEip (m.eip + 1)) :=
    execStepWhile_one hfetch hfinds (by decide) hrun
  have hstep : execStep 1 m = .ok () ((m.setOpcode 0xf4).setEip (m.eip + 1)) := by
    rw [← execStepWhile_true]
    exact execStepWhile_one hfetch trivial (by decide) hrun
  generalize hm₁ : (m.setOpcode 0xf4).setEip (m.eip + 1) = m₁ at hwhile hstep
  have hjump := jump_getD (show (jumped (checkIntr (m₁.setBus m₁.bus))).isSome = true by
    subst hm₁ hm; decide +kernel) m₁
  exact ⟨m₁, _, hstep, hjump, (hlt_wakes_iff (D := fun _ _ => True) .start hwhile hjump).1.mpr rfl⟩

/-- It becomes pending in `device_update`. -/
theorem hlt_wakes_wrong : ∃ m₁ m₂, execStep 1 (hltMachine none) = .ok () m₁ ∧
    checkIntr (m₁.setBus { m₁.bus with request := some 0x20 }) = .jump m₂ ∧
    peek m₂.mem (m₂.cpu.linear (m₂.reg .l rESP) 2) 4 ≠ (hltMachine none).eip + 1 := by
  have hstep := ok_stateD (show value (execStep 1 (hltMachine none)) = some () by decide +kernel) (hltMachine none)
  generalize hm : stateD (hltMachine none) (execStep 1 (hltMachine none)) = m₁ at hstep
  have hjump := jump_getD (show (jumped (checkIntr (m₁.setBus { m₁.bus with request := some 0x20 }))).isSome = true by
    subst hm; decide +kernel) m₁
  refine ⟨m₁, _, hstep, hjump, ?_⟩
  subst hm
  decide +kernel

end Nemu
