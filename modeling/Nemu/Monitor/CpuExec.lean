/-
# How many instructions cpu_exec executes

The loop of `cpu_exec` counts `n` down at the end of its body. An interrupt
leaves the body before that, through `longjmp` to the `setjmp` in front of the
loop: `INT` right after it was executed, a hardware interrupt after the check of
`INTR`. So the instruction before an interrupt is not counted, and after an `INT`
neither `check_WP` nor `device_update` runs.

After each instruction `print_bin_instr` fetches its bytes once more for the trace,
under the segments and the page tables that the instruction left.

The value of a watchpoint's expression and what the devices do are parameters:
the `k`-th `device_update` changes the bus by `devices k`. The log notes what the
loop does.

Key definitions: `Emulator`, `cpuExecBody`, `cpuExecLoop`, `cpuExec`, `Visits`, `Quiet`.
Key theorems: `cpuExecBody_jump`, `quiet_of_next`, `cpuExecLoop_counts`, `cpuExec_exact_iff`.
-/
import Nemu.Cpu.FlatBus
import Nemu.Cpu.Jumps

namespace Nemu

open Bytes Cmd Instr

/-- What the loop does: it executes an instruction, calls `check_WP` and
`device_update`, or starts again after a `longjmp`. -/
inductive Event where
  | instr | checkWP | deviceUpdate | longjmp
  deriving DecidableEq

/-- The machine, the expressions and values of the active watchpoints, how often
`device_update` was called, and the log. -/
structure Emulator (P : Type) where
  machine : Machine P
  wps : List (String × Word)
  updates : ℕ
  log : List Event

section CpuExec

variable {P : Type}

namespace Emulator

variable (s : Emulator P)

def setMachine (m : Machine P) : Emulator P := { s with machine := m }
def setState (st : NemuState) : Emulator P := s.setMachine (s.machine.setState st)
def setWps (l : List (String × Word)) : Emulator P := { s with wps := l }
def note (e : Event) : Emulator P := { s with log := s.log ++ [e] }

end Emulator

/-- A command of the machine. -/
def onMachine {α : Type} (c : Cmd (Machine P) α) : Cmd (Emulator P) α := fun s =>
  match c s.machine with
  | .ok a m => .ok a (s.setMachine m)
  | .jump m => .jump (s.setMachine m)
  | .abort e => .abort e
  | .outOfFuel => .outOfFuel

section Loop

variable (expr : String → Cmd (Machine P) (Word × Bool)) (devices : ℕ → P → P)

/-- The loop of `check_WP`: whether no value has changed, and the new values. -/
def checkWps : List (String × Word) → Cmd (Emulator P) (Bool × List (String × Word))
  | [] => pure (true, [])
  | h :: next => do
    let r ← onMachine (expr h.1)
    if r.2 = true then
      let rest ← checkWps next
      return (r.1 == h.2 && rest.1, (h.1, r.1) :: rest.2)
    else abort

def checkWP : Cmd (Emulator P) Bool := do
  write (·.note .checkWP)
  let wps ← read (·.wps)
  let r ← checkWps expr wps
  write (·.setWps r.2)
  return r.1

def deviceUpdate : Cmd (Emulator P) Unit := do
  write (·.note .deviceUpdate)
  write fun s => { s with
    machine := s.machine.setBus (devices s.updates s.machine.bus)
    updates := s.updates + 1 }

variable [Bus P] (fuel : ℕ)

/-- How many characters `print_bin_instr` puts into `asm_buf`: 12 for the address, 3 for
each of the `n` bytes, and blanks up to 50; beyond 50 the width is taken as `-width`. -/
def lineLength (n : ℕ) : ℕ := 12 + 3 * n + (50 - (12 + 3 * n : ℤ)).natAbs

/-- `print_bin_instr`, and the `strcat` behind it: `asm_buf` has 128 bytes. -/
def printBinInstr (eip len : Word) : Cmd (Machine P) Unit := do
  let n := len.toInt.toNat
  upto (fun i => do
    let _ ← instrFetch (eip + BitVec.ofNat 32 i) 1
    pure ()) n
  let text ← read fun m : Machine P => m.assembly.length.val
  if lineLength n + text < 128 then pure () else abort

/-- An instruction, and its line of the trace. -/
def tracedStep : Cmd (Machine P) Unit := do
  let eip ← read (·.eip)
  let len ← exec fuel eip
  let cur ← read (·.eip)
  write (·.setEip (cur + len))
  printBinInstr eip len

/-- The body of the loop up to the check of `INTR`; it returns whether the program is
still running. -/
def cpuExecRound : Cmd (Emulator P) Bool := do
  write (·.note .instr)
  onMachine (tracedStep fuel)
  let key ← checkWP expr
  (if key then pure () else write (·.setState .stop))
  deviceUpdate devices
  let state ← read (·.machine.state)
  return state == .running

/-- The body of the loop; it returns whether the loop goes on with `n --`. -/
def cpuExecBody : Cmd (Emulator P) Bool := do
  let running ← cpuExecRound expr devices fuel
  if running = true then
    onMachine checkIntr
    return true
  else return false

/-- The loop, for at most so many rounds; it returns whether `n` came to 0. -/
def cpuExecLoop : ℕ → Word → Cmd (Emulator P) Bool
  | 0, _ => outOfFuel
  | rounds + 1, n => fun s =>
    if n = 0 then .ok true (if s.machine.state = .running then s.setState .stop else s)
    else match cpuExecBody expr devices fuel s with
      | .ok true s => cpuExecLoop rounds (n - 1) s
      | .ok false s => .ok false s
      | .jump s => cpuExecLoop rounds n (s.note .longjmp)
      | .abort e => .abort e
      | .outOfFuel => .outOfFuel

/-- `cpu_exec`. -/
def cpuExec (rounds : ℕ) (n : Word) : Cmd (Emulator P) Bool := do
  let state ← read (·.machine.state)
  if state = .ended then return false
  else
    write (·.setState .running)
    cpuExecLoop expr devices fuel rounds n

end Loop

/-! ### What a round notes -/

/-- The log. -/
def LogIs (l : List Event) (s : Emulator P) : Prop := s.log = l

section Log

variable {l : List Event} {expr : String → Cmd (Machine P) (Word × Bool)} {devices : ℕ → P → P}
  {fuel : ℕ}

instance {α : Type} (c : Cmd (Machine P) α) : Keeps (LogIs l) (onMachine c) := by
  refine ⟨fun s hs => ?_⟩
  unfold onMachine
  cases c s.machine with
  | ok a m => exact hs
  | jump m => exact hs
  | abort e => trivial
  | outOfFuel => trivial

instance (st : NemuState) : Kept (LogIs (P := P) l) (Emulator.setState · st) := ⟨fun _ h => h⟩
instance (wps : List (String × Word)) : Kept (LogIs (P := P) l) (Emulator.setWps · wps) := ⟨fun _ h => h⟩

theorem checkWps_keeps : ∀ wps, Keeps (LogIs l) (checkWps expr wps)
  | [] => by
    unfold checkWps
    infer_instance
  | h :: next => by
    have ih := checkWps_keeps next
    unfold checkWps
    infer_instance

theorem checkWP_log {s : Emulator P} (hs : LogIs l s) :
    Ends (fun _ => LogIs (l ++ [.checkWP])) (LogIs (l ++ [.checkWP])) (checkWP expr s) := by
  have hloop : ∀ wps, Keeps (LogIs (l ++ [.checkWP])) (checkWps expr wps) := checkWps_keeps
  have hnote : LogIs (l ++ [.checkWP]) (s.note .checkWP) := by
    unfold LogIs Emulator.note
    rw [hs]
  unfold checkWP
  rw [write_bind_run]
  exact Keeps.ends _ hnote

theorem deviceUpdate_run {s : Emulator P} (hs : LogIs l s) :
    ∃ s', deviceUpdate devices s = .ok () s' ∧ LogIs (l ++ [.deviceUpdate]) s' := by
  refine ⟨_, rfl, ?_⟩
  show s.log ++ [.deviceUpdate] = l ++ [.deviceUpdate]
  rw [hs]

variable [Bus P]

/-- What a complete round notes. -/
def roundLog : List Event := [.instr, .checkWP, .deviceUpdate]

/-- What a round notes that is left by a jump: one instruction and no `longjmp` yet. -/
def LeftAt (l : List Event) (s : Emulator P) : Prop :=
  ∃ l', s.log = l ++ l' ∧ l'.count .instr = 1 ∧ l'.count .longjmp = 0

omit [Bus P] in
theorem LogIs.leftAt {l' : List Event} {s : Emulator P} (h : LogIs (l ++ l') s)
    (hi : l'.count .instr = 1) (hj : l'.count .longjmp = 0) : LeftAt l s := ⟨l', h, hi, hj⟩

/-- **One round**, up to the check of `INTR`. -/
theorem cpuExecRound_log {s : Emulator P} (hs : LogIs l s) :
    Ends (fun _ => LogIs (l ++ roundLog)) (LeftAt l) (cpuExecRound expr devices fuel s) := by
  have hnote : LogIs (l ++ [.instr]) (s.note .instr) := by
    unfold LogIs Emulator.note
    rw [hs]
  unfold cpuExecRound
  rw [write_bind_run]
  refine Ends.bind (Q := fun _ => LogIs (l ++ [.instr])) ?_ fun _ s hs => ?_
  · exact (Keeps.ends _ hnote).mono (fun _ _ h => h) fun _ h => h.leftAt rfl rfl
  refine Ends.bind (Q := fun _ => LogIs (l ++ [.instr] ++ [.checkWP])) ?_ fun key s hs => ?_
  · refine (checkWP_log hs).mono (fun _ _ h => h) fun s h => ?_
    rw [List.append_assoc] at h
    exact h.leftAt rfl rfl
  refine Ends.bind (Q := fun _ => LogIs (l ++ [.instr] ++ [.checkWP])) ?_ fun _ s hs => ?_
  · split
    · exact hs
    · exact hs
  obtain ⟨s, hrun, hs⟩ : ∃ s', deviceUpdate devices s = .ok () s' ∧ LogIs _ s' := deviceUpdate_run hs
  rw [bind_ok hrun, read_bind_run]
  simp only [List.append_assoc, List.cons_append, List.nil_append] at hs
  exact hs

theorem cpuExecBody_log {s : Emulator P} (hs : LogIs l s) :
    Ends (fun _ => LogIs (l ++ roundLog)) (LeftAt l) (cpuExecBody expr devices fuel s) := by
  unfold cpuExecBody
  refine (cpuExecRound_log hs).bind fun running s hs => ?_
  have hend : ∀ c : Cmd (Emulator P) Bool, Keeps (LogIs (l ++ roundLog)) c →
      Ends (fun _ => LogIs (l ++ roundLog)) (LeftAt l) (c s) := by
    intro c hc
    exact (hc.ends s hs).mono (fun _ _ h => h) fun _ h => h.leftAt rfl rfl
  exact hend _ inferInstance

/-! ### What a run notes -/

theorem cpuExecLoop_next {rounds : ℕ} {n : Word} {s t : Emulator P} (hn : n ≠ 0)
    (hb : cpuExecBody expr devices fuel s = .ok true t) :
    cpuExecLoop expr devices fuel (rounds + 1) n s = cpuExecLoop expr devices fuel rounds (n - 1) t := by
  rw [cpuExecLoop]
  simp only [if_neg hn, hb]

/-- How a run becomes complete: `n` is 0, or a round goes on with `n --`, or it is
left by a jump. -/
theorem cpuExecLoop_cases {rounds : ℕ} {n : Word} {s s' : Emulator P}
    (h : cpuExecLoop expr devices fuel (rounds + 1) n s = .ok true s') :
    (n = 0 ∧ s'.log = s.log) ∨
    (∃ t, n.toNat = (n - 1).toNat + 1 ∧ cpuExecBody expr devices fuel s = .ok true t ∧
      cpuExecLoop expr devices fuel rounds (n - 1) t = .ok true s') ∨
    ∃ t, cpuExecBody expr devices fuel s = .jump t ∧
      cpuExecLoop expr devices fuel rounds n (t.note .longjmp) = .ok true s' := by
  rw [cpuExecLoop] at h
  by_cases hn : n = 0
  · simp only [if_pos hn] at h
    injection h with _ h
    refine .inl ⟨hn, ?_⟩
    rw [← h]
    split <;> rfl
  · have hnat : n.toNat = (n - 1).toNat + 1 := by
      have hpos := BitVec.toNat_ne.mp hn
      simp at hpos ⊢
      omega
    simp only [if_neg hn] at h
    cases hb : cpuExecBody expr devices fuel s with
    | ok more t =>
      rw [hb] at h
      cases more with
      | false => exact nomatch h
      | true => exact .inr (.inl ⟨t, hnat, rfl, h⟩)
    | jump t =>
      rw [hb] at h
      exact .inr (.inr ⟨t, rfl, h⟩)
    | abort e =>
      rw [hb] at h
      exact nomatch h
    | outOfFuel =>
      rw [hb] at h
      exact nomatch h

/-- What is noted in a round that goes on. -/
theorem log_of_next {s t : Emulator P} (hb : cpuExecBody expr devices fuel s = .ok true t) :
    t.log = s.log ++ roundLog := by
  have hround : Ends (fun _ => LogIs (s.log ++ roundLog)) (LeftAt s.log)
      (cpuExecBody expr devices fuel s) := cpuExecBody_log rfl
  rw [hb] at hround
  exact hround

/-- And in one that is left. -/
theorem log_of_jump {s t : Emulator P} (hb : cpuExecBody expr devices fuel s = .jump t) :
    LeftAt s.log t := by
  have hround : Ends (fun _ => LogIs (s.log ++ roundLog)) (LeftAt s.log)
      (cpuExecBody expr devices fuel s) := cpuExecBody_log rfl
  rw [hb] at hround
  exact hround

/-- **A run** executes one instruction more for each `longjmp`. -/
theorem cpuExecLoop_counts : ∀ rounds n (s s' : Emulator P),
    cpuExecLoop expr devices fuel rounds n s = .ok true s' →
      ∃ l, s'.log = s.log ++ l ∧ l.count .instr = n.toNat + l.count .longjmp
  | 0, n, s, s', h => nomatch h
  | rounds + 1, n, s, s', h => by
    rcases cpuExecLoop_cases h with ⟨rfl, hlog⟩ | ⟨t, hnat, hb, h⟩ | ⟨t, hb, h⟩
    · exact ⟨[], by rw [hlog, List.append_nil], rfl⟩
    · obtain ⟨l, hlog, hcount⟩ := cpuExecLoop_counts rounds (n - 1) t s' h
      refine ⟨roundLog ++ l, by rw [hlog, log_of_next hb, List.append_assoc], ?_⟩
      rw [List.count_append, List.count_append, hcount, hnat]
      simp [roundLog]
      omega
    · obtain ⟨l₁, hlog₁, hinstr, hjump⟩ := log_of_jump hb
      obtain ⟨l, hlog, hcount⟩ := cpuExecLoop_counts rounds n (t.note .longjmp) s' h
      refine ⟨l₁ ++ [.longjmp] ++ l, ?_, ?_⟩
      · rw [hlog, show (t.note .longjmp).log = t.log ++ [.longjmp] from rfl, hlog₁]
        simp only [List.append_assoc]
      · simp only [List.count_append, hinstr, hjump, hcount]
        simp
        omega

/-! ### Runs without an interrupt -/

omit [Bus P] in
instance {α : Type} (c : Cmd (Machine P) α) [hc : Straight c] : Straight (onMachine c) := by
  refine ⟨fun s => ?_⟩
  have h := hc.ends s.machine
  unfold onMachine
  cases hrun : c s.machine with
  | ok a m => trivial
  | jump m =>
    rw [hrun] at h
    exact h
  | abort e => trivial
  | outOfFuel => trivial

omit [Bus P] in
instance : Straight (deviceUpdate devices) := by
  unfold deviceUpdate
  infer_instance

omit [Bus P] in
theorem checkWP_straight [hexpr : ∀ str, Straight (expr str)] : Straight (checkWP expr) := by
  have hloop : ∀ wps, Straight (checkWps expr wps) := by
    intro wps
    induction wps with
    | nil =>
      unfold checkWps
      infer_instance
    | cons h next ih =>
      unfold checkWps
      infer_instance
  unfold checkWP
  infer_instance

/-! ### The two ways out of a round -/

/-- No `INT` is executed in the step: stopping at one is not seen. -/
def NoIntIn (fuel : ℕ) (m : Machine P) : Prop := execStepWhile NoInt fuel m = execStep fuel m

/-- An interrupt is requested and allowed. -/
def Delivers (m : Machine P) : Prop := Bus.INTR m.bus = true ∧ m.flag .IF = true

/-- The trace comes after the step. -/
theorem tracedStep_ok {m m' : Machine P} (h : tracedStep fuel m = .ok () m') :
    ∃ m₁, execStep fuel m = .ok () m₁ := by
  unfold tracedStep at h
  rw [read_bind_run] at h
  obtain ⟨len, m₁, hexec, -⟩ := bind_eq_ok h
  refine ⟨m₁.setEip (m₁.eip + len), ?_⟩
  unfold execStep
  rw [read_bind_run, bind_ok hexec]
  rfl

theorem tracedStep_jump {m m' : Machine P} (h : tracedStep fuel m = .jump m') :
    execStep fuel m = .jump m' := by
  unfold tracedStep at h
  rw [read_bind_run] at h
  rcases bind_eq_jump h with h | ⟨len, m₁, -, h⟩
  · unfold execStep
    rw [read_bind_run, bind_run, h]
    rfl
  · have hprint : Straight (printBinInstr (P := P) m.eip len) := by
      unfold printBinInstr
      infer_instance
    rw [read_bind_run, write_bind_run] at h
    exact absurd h Straight.ne_jump

/-- An `INT` does not return to the loop. -/
theorem execStep_int {m m₁ : Machine P} (h : execStep fuel m = .ok () m₁) : NoIntIn fuel m := by
  have hexec : ∀ eip, Agree (fun _ _ o => ∀ a (m₁ : Machine P), o ≠ .ok a m₁)
      (execWhile (P := P) NoInt fuel eip) (exec fuel eip) := by
    rw [← funext (execWhile_true (P := P) fuel)]
    refine execWhile_agree (sticks_ne_ok fun _ => True) (fun _ _ _ _ => trivial) (fun _ _ => inferInstance)
      (fun fuel opcode eip m _ hint => ?_) fuel
    have hop : opcode.toNat = 0xcd := not_not.mp hint
    rw [hop, entry_intI]
    intro a m₁ hok
    unfold intI at hok
    obtain ⟨_, _, -, hok⟩ := bind_eq_ok hok
    rw [read_bind_run, write_bind_run] at hok
    exact raiseIntr_ne_ok hok
  have hstep : Agree (fun _ _ o => ∀ a (m₁ : Machine P), o ≠ .ok a m₁)
      (execStepWhile (P := P) NoInt fuel) (execStep fuel) :=
    .bind_same fun eip => .bind (sticks_ne_ok fun _ => True) (hexec eip) (fun _ => .refl _) fun _ => inferInstance
  exact (hstep m).resolve_right fun hno => hno _ _ h

variable (expr devices fuel) in
/-- No `INT` is executed in the round, and no interrupt is requested and allowed at its
end. -/
structure Quiet (s : Emulator P) : Prop where
  noInt : NoIntIn fuel s.machine
  idle : ∀ t, cpuExecRound expr devices fuel s = .ok true t → ¬ Delivers t.machine

/-- A round whose first part jumps does so in its step. -/
theorem cpuExecRound_jump [hexpr : ∀ str, Straight (expr str)] {s s' : Emulator P}
    (h : cpuExecRound expr devices fuel s = .jump s') :
    ∃ m, tracedStep fuel s.machine = .jump m := by
  have hwp : Straight (checkWP expr) := checkWP_straight
  unfold cpuExecRound at h
  rw [write_bind_run] at h
  rcases bind_eq_jump h with h | ⟨_, t, -, h⟩
  · unfold onMachine at h
    cases hstep : tracedStep fuel (s.note .instr).machine with
    | jump m => exact ⟨m, hstep⟩
    | ok a m =>
      rw [hstep] at h
      exact nomatch h
    | abort e =>
      rw [hstep] at h
      exact nomatch h
    | outOfFuel =>
      rw [hstep] at h
      exact nomatch h
  · exact absurd h Straight.ne_jump

/-- A round is left by a jump after an `INT`, or to deliver an interrupt. -/
theorem cpuExecBody_jump [∀ str, Straight (expr str)] {s s' : Emulator P}
    (h : cpuExecBody expr devices fuel s = .jump s') : ¬ Quiet expr devices fuel s := by
  intro hq
  unfold cpuExecBody at h
  rcases bind_eq_jump h with hround | ⟨running, t, hround, h⟩
  · obtain ⟨m, hstep⟩ := cpuExecRound_jump hround
    have hjump : execStep fuel s.machine = .jump m := tracedStep_jump hstep
    have habort : execStepWhile NoInt fuel s.machine = .abort .assertion := execStep_jump_int hjump
    rw [hq.noInt, hjump] at habort
    exact nomatch habort
  · cases running with
    | false => exact nomatch h
    | true =>
      rw [if_pos rfl] at h
      rcases bind_eq_jump h with h | ⟨_, _, -, h⟩
      · unfold onMachine at h
        cases hintr : checkIntr t.machine with
        | jump m =>
          obtain ⟨hi, hif, -⟩ := checkIntr_jump hintr
          exact hq.idle t hround ⟨hi, hif⟩
        | ok a m =>
          rw [hintr] at h
          exact nomatch h
        | abort e =>
          rw [hintr] at h
          exact nomatch h
        | outOfFuel =>
          rw [hintr] at h
          exact nomatch h
      · exact nomatch h

omit [Bus P] in
theorem onMachine_ok {α : Type} {c : Cmd (Machine P) α} {a : α} {s t : Emulator P}
    (h : onMachine c s = .ok a t) : ∃ m, c s.machine = .ok a m := by
  unfold onMachine at h
  cases hc : c s.machine with
  | ok b m =>
    rw [hc] at h
    injection h with h
    exact ⟨m, by rw [h]⟩
  | jump m =>
    rw [hc] at h
    exact nomatch h
  | abort e =>
    rw [hc] at h
    exact nomatch h
  | outOfFuel =>
    rw [hc] at h
    exact nomatch h

/-- An interrupt that is requested and allowed is delivered. -/
theorem checkIntr_ne_ok {m m' : Machine P} (hd : Delivers m) : checkIntr m ≠ .ok () m' := by
  intro h
  unfold checkIntr at h
  rw [read_bind_run, read_bind_run] at h
  have hi : Bus.INTR m.bus = true ∧ m.flag .IF = true := hd
  rw [if_pos hi, read_bind_run] at h
  obtain ⟨_, _, -, h⟩ := bind_eq_ok h
  obtain ⟨_, _, hraise, -⟩ := bind_eq_ok h
  exact raiseIntr_ne_ok hraise

/-- A round that goes on is quiet. -/
theorem quiet_of_next {s s' : Emulator P} (h : cpuExecBody expr devices fuel s = .ok true s') :
    Quiet expr devices fuel s := by
  unfold cpuExecBody at h
  obtain ⟨running, t, hround, h⟩ := bind_eq_ok h
  refine ⟨?_, fun t' hround' hd => ?_⟩
  · have hfirst := hround
    unfold cpuExecRound at hfirst
    rw [write_bind_run] at hfirst
    obtain ⟨_, t₁, hstep, -⟩ := bind_eq_ok hfirst
    obtain ⟨m, hstep⟩ := onMachine_ok hstep
    obtain ⟨m₁, hexec⟩ := tracedStep_ok hstep
    exact execStep_int hexec
  · obtain ⟨rfl, rfl⟩ : running = true ∧ t = t' := by
      rw [hround] at hround'
      injection hround' with hr ht
      exact ⟨hr, ht⟩
    rw [if_pos rfl] at h
    obtain ⟨_, t₂, hintr, -⟩ := bind_eq_ok h
    obtain ⟨m, hintr⟩ := onMachine_ok hintr
    exact checkIntr_ne_ok hd hintr

/-! ### Exactness -/

variable (expr devices fuel) in
/-- The states in which a round of the run starts. -/
inductive Visits : Emulator P → Word → Emulator P → Prop where
  | here {s : Emulator P} {n : Word} : n ≠ 0 → Visits s n s
  | next {s s' t : Emulator P} {n : Word} : n ≠ 0 → cpuExecBody expr devices fuel s = .ok true s' →
    Visits s' (n - 1) t → Visits s n t
  | again {s s' t : Emulator P} {n : Word} : n ≠ 0 → cpuExecBody expr devices fuel s = .jump s' →
    Visits (s'.note .longjmp) n t → Visits s n t

variable (expr devices fuel) in
/-- Nothing stops or aborts the program in the round: it comes to `n --`, or is left by
a jump. -/
def Goes (s : Emulator P) : Prop :=
  ∃ s', cpuExecBody expr devices fuel s = .ok true s' ∨ cpuExecBody expr devices fuel s = .jump s'

/-- A run of `n` quiet rounds is complete. -/
theorem cpuExecLoop_quiet [∀ str, Straight (expr str)] : ∀ {k : ℕ} {n : Word} {s : Emulator P},
    n.toNat = k → (∀ t, Visits expr devices fuel s n t → Goes expr devices fuel t) →
      (∀ t, Visits expr devices fuel s n t → Quiet expr devices fuel t) →
        ∃ s', cpuExecLoop expr devices fuel (k + 1) n s = .ok true s' ∧
          s'.log = s.log ++ (List.replicate k roundLog).flatten
  | 0, n, s, hn, _, _ => by
    have hzero : n = 0 := BitVec.eq_of_toNat_eq hn
    refine ⟨if s.machine.state = .running then s.setState .stop else s, ?_, ?_⟩
    · rw [cpuExecLoop]
      simp only [if_pos hzero]
    · rw [List.replicate_zero, List.flatten_nil, List.append_nil]
      split <;> rfl
  | k + 1, n, s, hn, hgoes, hquiet => by
    have hpos : n ≠ 0 := by
      rintro rfl
      exact nomatch hn
    have hnat : (n - 1).toNat = k := by
      simp
      omega
    obtain ⟨t, hb | hb⟩ := hgoes s (.here hpos)
    · obtain ⟨s', hrun, hlog⟩ := cpuExecLoop_quiet hnat (fun t' h => hgoes t' (.next hpos hb h))
        fun t' h => hquiet t' (.next hpos hb h)
      refine ⟨s', (cpuExecLoop_next hpos hb).trans hrun, ?_⟩
      rw [hlog, log_of_next hb, List.append_assoc, List.replicate_succ, List.flatten_cons]
    · exact absurd (hquiet s (.here hpos)) (cpuExecBody_jump hb)

/-- Nothing stops a complete run. -/
theorem goes_of_run : ∀ {rounds : ℕ} {n : Word} {s s' : Emulator P},
    cpuExecLoop expr devices fuel rounds n s = .ok true s' →
      ∀ t, Visits expr devices fuel s n t → Goes expr devices fuel t
  | 0, n, s, s', h, _, _ => nomatch h
  | rounds + 1, n, s, s', h, u, hu => by
    have hcases := cpuExecLoop_cases h
    cases hu with
    | here hn =>
      rcases hcases with ⟨rfl, -⟩ | ⟨t, -, hb, -⟩ | ⟨t, hb, -⟩
      · exact absurd rfl hn
      · exact ⟨t, .inl hb⟩
      · exact ⟨t, .inr hb⟩
    | next hn hb' hu =>
      rcases hcases with ⟨rfl, -⟩ | ⟨t, -, hb, h⟩ | ⟨t, hb, -⟩
      · exact absurd rfl hn
      · rw [hb] at hb'
        injection hb' with _ ht
        subst ht
        exact goes_of_run h u hu
      · rw [hb] at hb'
        exact nomatch hb'
    | again hn hb' hu =>
      rcases hcases with ⟨rfl, -⟩ | ⟨t, -, hb, -⟩ | ⟨t, hb, h⟩
      · exact absurd rfl hn
      · rw [hb] at hb'
        exact nomatch hb'
      · rw [hb] at hb'
        injection hb' with ht
        subst ht
        exact goes_of_run h u hu

/-- A complete run without a `longjmp` has quiet rounds only. -/
theorem quiet_of_run : ∀ {rounds : ℕ} {n : Word} {s s' : Emulator P},
    cpuExecLoop expr devices fuel rounds n s = .ok true s' →
      s'.log.count .longjmp = s.log.count .longjmp →
        ∀ t, Visits expr devices fuel s n t → Quiet expr devices fuel t
  | 0, n, s, s', h, _, _, _ => nomatch h
  | rounds + 1, n, s, s', h, hcount, u, hu => by
    rcases cpuExecLoop_cases h with ⟨rfl, -⟩ | ⟨t, hnat, hb, h⟩ | ⟨t, hb, h⟩
    · cases hu with
      | here hn => exact absurd rfl hn
      | next hn => exact absurd rfl hn
      | again hn => exact absurd rfl hn
    · cases hu with
      | here _ => exact quiet_of_next hb
      | next _ hb' hu =>
        rw [hb] at hb'
        injection hb' with _ ht
        subst ht
        refine quiet_of_run h ?_ u hu
        rw [hcount, log_of_next hb, List.count_append]
        rfl
      | again _ hb' _ =>
        rw [hb] at hb'
        exact nomatch hb'
    · obtain ⟨l₁, hlog₁, -, -⟩ := log_of_jump hb
      obtain ⟨l, hlog, -⟩ := cpuExecLoop_counts rounds n (t.note .longjmp) s' h
      rw [hlog, show (t.note .longjmp).log = t.log ++ [.longjmp] from rfl, hlog₁] at hcount
      simp only [List.count_append, List.count_singleton_self] at hcount
      omega

/-- Unless the program has ended, `cpu_exec` runs its loop. -/
theorem cpuExec_run {rounds : ℕ} {n : Word} {s : Emulator P} (hstate : s.machine.state ≠ .ended) :
    cpuExec expr devices fuel rounds n s = cpuExecLoop expr devices fuel rounds n (s.setState .running) := by
  unfold cpuExec
  rw [read_bind_run, if_neg hstate, write_bind_run]

/-- **Stepping.** In a program that nothing stops, `cpu_exec(n)` executes `n`
instructions, with a `check_WP` and a `device_update` after each, exactly if in no round
an `INT` is executed or an interrupt delivered; in general it executes one more for each
of these. -/
theorem cpuExec_exact_iff [∀ str, Straight (expr str)] {n : Word} {s : Emulator P} (hlog : s.log = [])
    (hstate : s.machine.state ≠ .ended)
    (hgoes : ∀ t, Visits expr devices fuel (s.setState .running) n t → Goes expr devices fuel t) :
    ((∃ rounds s', cpuExec expr devices fuel rounds n s = .ok true s' ∧
        s'.log.filter (· ≠ .longjmp) = (List.replicate n.toNat roundLog).flatten) ↔
      ∀ t, Visits expr devices fuel (s.setState .running) n t → Quiet expr devices fuel t) ∧
    ∀ rounds s', cpuExec expr devices fuel rounds n s = .ok true s' →
      s'.log.count .instr = n.toNat + s'.log.count .longjmp := by
  have hcounts : ∀ rounds s', cpuExec expr devices fuel rounds n s = .ok true s' →
      s'.log.count .instr = n.toNat + s'.log.count .longjmp := by
    intro rounds s' h
    rw [cpuExec_run hstate] at h
    obtain ⟨l, hl, hcount⟩ := cpuExecLoop_counts rounds n _ s' h
    rw [show (s.setState .running).log = s.log from rfl, hlog, List.nil_append] at hl
    rw [hl, hcount]
  refine ⟨⟨?_, fun hquiet => ?_⟩, hcounts⟩
  · rintro ⟨rounds, s', h, hexact⟩
    -- the filter keeps the instructions, and so there is no `longjmp`
    have hinstr : s'.log.count .instr = n.toNat := by
      rw [← List.count_filter (p := (· ≠ .longjmp)) (by decide), hexact, List.count_flatten]
      simp [roundLog]
    have hzero : s'.log.count .longjmp = 0 := by
      have := hcounts rounds s' h
      omega
    rw [cpuExec_run hstate] at h
    refine quiet_of_run h ?_
    rw [hzero, show (s.setState .running).log = s.log from rfl, hlog]
    rfl
  · obtain ⟨s', hloop, hl⟩ := cpuExecLoop_quiet rfl hgoes hquiet
    refine ⟨n.toNat + 1, s', by rw [cpuExec_run hstate, hloop], ?_⟩
    rw [hl, show (s.setState .running).log = s.log from rfl, hlog, List.nil_append]
    refine List.filter_eq_self.mpr fun e he => ?_
    obtain ⟨l, hmem, hel⟩ := List.mem_flatten.mp he
    rw [List.eq_of_mem_replicate hmem] at hel
    revert hel
    cases e <;> decide

end Log

end CpuExec

/-! ### One step, and one that is an `INT` -/

/-- An emulator without watchpoints. -/
def emulator (m : Machine FlatBus) : Emulator FlatBus := ⟨m, [], 0, []⟩

/-- `cpu_exec(1)`, when the devices do nothing. -/
def stepOnce (m : Machine FlatBus) : Outcome (Emulator FlatBus) Bool :=
  cpuExec (fun _ => abort) (fun _ p => p) 1 3 1 (emulator m)

/-- The log of a run, and whether it is complete. -/
def runLog (o : Outcome (Emulator FlatBus) Bool) : Option (Bool × List Event) :=
  (result o).map fun r => (r.1, r.2.log)

theorem of_runLog {o : Outcome (Emulator FlatBus) Bool} {b : Bool} {l : List Event}
    (h : runLog o = some (b, l)) : ∃ s, o = .ok b s ∧ s.log = l := by
  cases o with
  | ok a s =>
    obtain ⟨rfl, rfl⟩ := Prod.mk.inj (Option.some.inj h)
    exact ⟨s, rfl, rfl⟩
  | jump s => exact nomatch h
  | abort e => exact nomatch h
  | outOfFuel => exact nomatch h

/-- Three `nop`s after each other. -/
def nops : Emulator FlatBus := emulator (flatMachine (fun _ => 512) [0x90, 0x90, 0x90])

/-- The states in which a round of theirs starts. -/
def nopRound : ℕ → Emulator FlatBus
  | 0 => nops.setState .running
  | i + 1 => stateD (nopRound i) (cpuExecBody (fun _ => abort) (fun _ p => p) 1 (nopRound i))

/-- The third round is visited, and is quiet. -/
theorem cpuExec_exact_iff_nop : Visits (fun _ => abort) (fun _ p => p) 1 (nops.setState .running) 3 (nopRound 2) ∧
    Quiet (fun _ => abort) (fun _ p => p) 1 (nopRound 2) ∧
    ∃ s, cpuExec (fun _ => abort) (fun _ p => p) 1 4 3 nops = .ok true s ∧ s.log.count .instr = 3 + s.log.count .longjmp := by
  have hvisits : Visits (fun _ => abort) (fun _ p => p) 1 (nops.setState .running) 3 (nopRound 2) :=
    .next (by decide) (ok_stateD (by decide +kernel) (nopRound 0))
      (.next (by decide) (ok_stateD (by decide +kernel) (nopRound 1)) (.here (by decide)))
  obtain ⟨s, hrun, hlog⟩ := of_runLog (show runLog (cpuExec (fun _ => abort) (fun _ p => p) 1 4 3 nops) =
    some (true, roundLog ++ roundLog ++ roundLog) by decide +kernel)
  have hgoes := goes_of_run ((cpuExec_run (by decide)).symm.trans hrun)
  obtain ⟨hiff, hcounts⟩ := cpuExec_exact_iff (s := nops) rfl (by decide) hgoes
  exact ⟨hvisits, hiff.mp ⟨4, s, hrun, by rw [hlog]; decide⟩ _ hvisits, s, hrun, hcounts 4 s hrun⟩

/-- `int $0x20` at 0, its handler at 16, and the gate of vector 0x20 at 32. -/
def intMachine : Machine FlatBus :=
  let m := flatMachine (fun _ => 512)
    [0xcd, 0x20, 0, 0, 0, 0, 0, 0, 0, 0, 0, 0, 0, 0, 0, 0,
      0x90, 0, 0, 0, 0, 0, 0, 0, 0, 0, 0, 0, 0, 0, 0, 0,
      16, 0, 8, 0, 0, 0x8e, 0, 0]
  { m with cpu := { m.cpu with idtr := ⟨0, 0xffffff20⟩, gdtr := ⟨0, 40⟩ } }

/-- `cpu_exec(1)` executes the `INT` and the first instruction of its handler, with
one `check_WP` and one `device_update`. -/
theorem cpuExec_int_twice :
    ∃ s, stepOnce intMachine = .ok true s ∧
      s.log = [.instr, .longjmp, .instr, .checkWP, .deviceUpdate] :=
  of_runLog (by decide +kernel)

end Nemu
