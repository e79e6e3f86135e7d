/-
# cpu_exec on two buses

What `cpu_exec` does on one bus follows what it does on another one, watchpoints
and interrupts included, if the accesses and what the devices do of themselves
follow. The two emulators have the same watchpoints, and note the same log.

Key definitions: `Lockstep`.
Key theorems: `tracedStep_follows`, `cpuExecBody_follows`, `cpuExec_follows`.
-/
import Nemu.Cpu.Buses
import Nemu.Monitor.CpuExec

namespace Nemu

open Bytes Cmd Instr

section Lockstep

variable {P Q : Type} {ρ : P → Q → Prop} {expr : String → Cmd (Machine P) (Word × Bool)}
  {expr' : String → Cmd (Machine Q) (Word × Bool)} {devices : ℕ → P → P} {devices' : ℕ → Q → Q}

variable (ρ expr expr') in
/-- The same processor, watchpoints, updates and log; the expressions that are watched follow. -/
structure Lockstep (e : Emulator P) (e' : Emulator Q) : Prop where
  machine : OnBus ρ e.machine e'.machine
  wps : e.wps = e'.wps
  updates : e.updates = e'.updates
  log : e.log = e'.log
  exprs : ∀ w ∈ e.wps, Alongside ρ (expr w.1) (expr' w.1)

/-- A command of the machine. -/
instance {α : Type} (c : Cmd (Machine P) α) (d : Cmd (Machine Q) α) [h : Alongside ρ c d] :
    Obeys (Lockstep ρ expr expr') (onMachine c) (onMachine d) := by
  refine ⟨fun e e' he => ?_⟩
  have hcd := h.abides _ _ he.machine
  unfold onMachine
  cases hd : d e'.machine with
  | ok b n =>
    rw [hd] at hcd
    obtain ⟨m, hm, hmn⟩ := hcd.ok
    rw [hm]
    exact ⟨rfl, hmn, he.wps, he.updates, he.log, he.exprs⟩
  | jump n =>
    rw [hd] at hcd
    obtain ⟨m, hm, hmn⟩ := hcd.jump
    rw [hm]
    exact ⟨hmn, he.wps, he.updates, he.log, he.exprs⟩
  | abort e => exact abides_abort _ _ e
  | outOfFuel =>
    rw [hd] at hcd
    rw [hcd.outOfFuel]
    trivial

theorem Lockstep.note {e : Emulator P} {e' : Emulator Q} (h : Lockstep ρ expr expr' e e') (v : Event) :
    Lockstep ρ expr expr' (e.note v) (e'.note v) :=
  ⟨h.machine, h.wps, h.updates, congrArg (· ++ [v]) h.log, h.exprs⟩

theorem Lockstep.setState {e : Emulator P} {e' : Emulator Q} (h : Lockstep ρ expr expr' e e') (n : NemuState) :
    Lockstep ρ expr expr' (e.setState n) (e'.setState n) := by
  refine ⟨?_, h.wps, h.updates, h.log, h.exprs⟩
  exact WritesAs.related (f := (Machine.setState (P := P) · n)) (g := (Machine.setState (P := Q) · n)) _ _ h.machine

instance (v : Event) : WritesAs (Lockstep ρ expr expr') (Emulator.note · v) (Emulator.note · v) :=
  ⟨fun _ _ h => h.note v⟩
instance (n : NemuState) : WritesAs (Lockstep ρ expr expr') (Emulator.setState · n) (Emulator.setState · n) :=
  ⟨fun _ _ h => h.setState n⟩
instance : ReadsAs (Lockstep ρ expr expr') (fun e : Emulator P => e.machine.state)
    (fun e : Emulator Q => e.machine.state) := ⟨fun _ _ h => h.machine.state.symm⟩

/-- `check_WP`: the new values belong to the same expressions. -/
theorem checkWps_follows {wps : List (String × Word)} (h : ∀ w ∈ wps, Alongside ρ (expr w.1) (expr' w.1)) :
    Obeys (Lockstep ρ expr expr') (checkWps expr wps) (checkWps expr' wps) := by
  induction wps with
  | nil =>
    unfold checkWps
    infer_instance
  | cons w next ih =>
    have hw : Alongside ρ (expr w.1) (expr' w.1) := h w List.mem_cons_self
    have hnext := ih fun w hw => h w (List.mem_cons_of_mem _ hw)
    unfold checkWps
    infer_instance

theorem checkWps_names {wps : List (String × Word)} {e e' : Emulator P} {r : Bool × List (String × Word)}
    (h : checkWps expr wps e = .ok r e') : r.2.map Prod.fst = wps.map Prod.fst := by
  induction wps generalizing e e' r with
  | nil =>
    unfold checkWps at h
    injection h with h _
    rw [← h]
  | cons w next ih =>
    unfold checkWps at h
    obtain ⟨v, e₁, -, h⟩ := bind_eq_ok h
    by_cases hv : v.2 = true
    · rw [if_pos hv] at h
      obtain ⟨rest, e₂, hrest, h⟩ := bind_eq_ok h
      injection h with h _
      rw [← h, List.map_cons, List.map_cons, ih hrest]
    · rw [if_neg hv] at h
      cases h

instance checkWP_follows : Obeys (Lockstep ρ expr expr') (checkWP expr) (checkWP expr') := by
  refine ⟨fun e e' he => ?_⟩
  have hnote : Lockstep ρ expr expr' (e.note .checkWP) (e'.note .checkWP) := he.note _
  unfold checkWP
  simp only [write_bind_run, read_bind_run]
  rw [← hnote.wps]
  refine ((checkWps_follows hnote.exprs).abides _ _ hnote).bind fun r s t hrun hst => ⟨rfl, ?_⟩
  refine ⟨hst.machine, rfl, hst.updates, hst.log, fun w hw => ?_⟩
  have hmem : w.1 ∈ (e.note .checkWP).wps.map Prod.fst := by
    rw [← checkWps_names hrun]
    exact List.mem_map_of_mem hw
  obtain ⟨w', hw', heq⟩ := List.mem_map.mp hmem
  exact heq ▸ hnote.exprs w' hw'

section Loop

variable (hdevices : ∀ k p q, ρ p q → ρ (devices k p) (devices' k q))

include hdevices in
/-- `device_update`. -/
theorem deviceUpdate_follows : Obeys (Lockstep ρ expr expr') (deviceUpdate devices) (deviceUpdate devices') := by
  have hnote : WritesAs (Lockstep ρ expr expr') (Emulator.note · .deviceUpdate) (Emulator.note · .deviceUpdate) :=
    inferInstance
  have hupdate : WritesAs (Lockstep ρ expr expr')
      (fun e : Emulator P => { e with machine := e.machine.setBus (devices e.updates e.machine.bus), updates := e.updates + 1 })
      (fun e : Emulator Q => { e with machine := e.machine.setBus (devices' e.updates e.machine.bus), updates := e.updates + 1 }) := by
    refine ⟨fun e e' he => ⟨?_, he.wps, congrArg (· + 1) he.updates, he.log, he.exprs⟩⟩
    have hbus := hdevices e.updates _ _ he.machine.bus
    dsimp only
    rw [← he.updates]
    revert hbus
    generalize hm : e.machine = m
    generalize hn : e'.machine = n
    have hmn : OnBus ρ m n := hm ▸ hn ▸ he.machine
    obtain ⟨q, h⟩ := hmn
    exact fun hbus => .intro (m.setBus _) _ hbus
  unfold deviceUpdate
  infer_instance

variable [Bus P] [Bus Q] [BusFollows ρ] (fuel : ℕ)

/-- The trace fetches the same bytes. -/
instance printBinInstr_follows (eip len : Word) : Alongside ρ (printBinInstr (P := P) eip len)
    (printBinInstr (P := Q) eip len) := by
  unfold printBinInstr
  infer_instance

instance tracedStep_follows : Alongside ρ (tracedStep (P := P) fuel) (tracedStep (P := Q) fuel) := by
  have hexec : ∀ eip, Alongside ρ (exec (P := P) fuel eip) (exec (P := Q) fuel eip) := exec_follows fuel
  unfold tracedStep
  infer_instance

include hdevices in
/-- The first part of a round. -/
theorem cpuExecRound_follows : Obeys (Lockstep ρ expr expr') (cpuExecRound expr devices fuel)
    (cpuExecRound expr' devices' fuel) := by
  have hupdate : Obeys (Lockstep ρ expr expr') (deviceUpdate devices) (deviceUpdate devices') :=
    deviceUpdate_follows hdevices
  have hstate : Obeys (Lockstep ρ expr expr') (Cmd.read fun e : Emulator P => e.machine.state)
      (Cmd.read fun e : Emulator Q => e.machine.state) := inferInstance
  have hend : ∀ state : NemuState, Obeys (Lockstep ρ expr expr')
      (pure (state == .running) : Cmd (Emulator P) Bool) (pure (state == .running)) := inferInstance
  unfold cpuExecRound
  infer_instance

include hdevices in
/-- **One round** of the loop. -/
theorem cpuExecBody_follows : Obeys (Lockstep ρ expr expr') (cpuExecBody expr devices fuel)
    (cpuExecBody expr' devices' fuel) := by
  have hround : Obeys (Lockstep ρ expr expr') (cpuExecRound expr devices fuel)
      (cpuExecRound expr' devices' fuel) := cpuExecRound_follows hdevices fuel
  unfold cpuExecBody
  infer_instance

include hdevices in
theorem cpuExecLoop_follows (rounds : ℕ) (n : Word) : Obeys (Lockstep ρ expr expr')
    (cpuExecLoop expr devices fuel rounds n) (cpuExecLoop expr' devices' fuel rounds n) := by
  induction rounds generalizing n with
  | zero =>
    unfold cpuExecLoop
    infer_instance
  | succ rounds ih =>
    refine ⟨fun e e' he => ?_⟩
    rw [cpuExecLoop, cpuExecLoop]
    dsimp only
    by_cases hn : n = 0
    · rw [if_pos hn, if_pos hn, he.machine.state]
      split
      · exact ⟨rfl, he.setState .stop⟩
      · exact ⟨rfl, he⟩
    · rw [if_neg hn, if_neg hn]
      have hbody := (cpuExecBody_follows hdevices fuel).abides e e' he
      cases hb : cpuExecBody expr' devices' fuel e' with
      | ok more t =>
        rw [hb] at hbody
        obtain ⟨s, hs, hst⟩ := hbody.ok
        rw [hs]
        cases more with
        | true => exact (ih (n - 1)).abides s t hst
        | false => exact ⟨rfl, hst⟩
      | jump t =>
        rw [hb] at hbody
        obtain ⟨s, hs, hst⟩ := hbody.jump
        rw [hs]
        exact (ih n).abides _ _ (hst.note .longjmp)
      | abort e => exact abides_abort _ _ e
      | outOfFuel =>
        rw [hb] at hbody
        rw [hbody.outOfFuel]
        trivial

include hdevices in
/-- **`cpu_exec`** ends on the first bus as on the second, unless it aborts there. -/
theorem cpuExec_follows (rounds : ℕ) (n : Word) : Obeys (Lockstep ρ expr expr')
    (cpuExec expr devices fuel rounds n) (cpuExec expr' devices' fuel rounds n) := by
  have hloop : Obeys (Lockstep ρ expr expr') (cpuExecLoop expr devices fuel rounds n)
      (cpuExecLoop expr' devices' fuel rounds n) := cpuExecLoop_follows hdevices fuel rounds n
  unfold cpuExec
  infer_instance

end Loop

end Lockstep

end Nemu
