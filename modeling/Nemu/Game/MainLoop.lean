/-
# The typing game

`main_loop` of `game.c`, with the handlers `timer_event` and `keyboard_event`
that may run between any two of its steps while interrupts are enabled. A step
is a call or a test; what is done with interrupts disabled is one step, and the
other calls share with the handlers only what they touch once (`letter_pressed`
in `create_new_letter`, `key_code` in `redraw_screen`). `hlt` may return at any
time, as the loop looks at `tick` itself.

In every run no assertion fails, nothing overflows and every pixel is inside the
buffer, until `tick` itself overflows; there are never more than 14 letters; and
when the loop waits again, it has done the steps of all ticks that it had seen.

Key definitions: `Pc`, `Loop`, `Event`, `Loop.step`, `Run`, `Sound`.
Key theorems: `Sound.step`, `Run.steps`, `Run.letters`, `Run.drawn`, `Run.keys_hit`.
-/
import Nemu.Game.Shooting

namespace Nemu

namespace Typing

open Bytes Overlay LinkList Fixed DoWhile

/-- Where `main_loop` is. -/
inductive Pc where
  /-- at `wait_intr` -/
  | wait
  /-- after `cli` -/
  | check
  /-- at `update_keypress` -/
  | keys
  /-- at `now < target` -/
  | test
  /-- at `create_new_letter` -/
  | create
  /-- at `update_letter_pos` -/
  | move
  /-- behind it -/
  | count
  /-- at `if (redraw)` -/
  | draw
  deriving DecidableEq

/-- The game, the variables of `main_loop`, and the interrupt flag. -/
structure Loop where
  game : Game
  tick : ℤ
  keyCode : ℤ
  now : ℤ
  target : ℤ
  numDraw : ℤ
  redraw : Bool
  realFps : ℤ
  vbuf : Frame
  video : Frame
  intr : Bool
  pc : Pc

/-- `HZ`. -/
def hz : ℤ := 100

/-- `FPS`. -/
def fps : ℤ := 30

/-- `CHARACTER_PER_SECOND`. -/
def characterPerSecond : ℤ := 3

/-- `UPDATE_PER_SECOND`. -/
def updatePerSecond : ℤ := 100

/-- At the call of `main_loop`; the memory of the screen is as it is. -/
def Loop.init (vbuf video : Frame) : Loop :=
  ⟨Typing.init, 0, 0, 0, 0, 0, false, 0, vbuf, video, true, .wait⟩

/-- `display_buffer`. -/
def displayBuffer (vbuf video : Frame) : Frame := fun n => if n < scrSize then vbuf n else video n

/-- `now_fps`. -/
def nowFps (numDraw : ℤ) : Except Fault ℤ := do
  let twice ← num (int (numDraw * 2))
  let nowFps ← plus twice 1
  return if nowFps > fps then fps else nowFps

/-- What happens: an interrupt, or a step of the loop with what `rand` returns in it. -/
inductive Event where
  | timer
  | key (scanCode : Byte)
  | step (ry rv rt : Rand)

/-- Interrupts are taken when they are enabled. -/
def Event.Enabled (s : Loop) : Event → Prop
  | .timer => s.intr = true
  | .key _ => s.intr = true
  | .step .. => True

namespace Loop

/-- `timer_event`. -/
def timerEvent (s : Loop) : Except Fault Loop := do
  let tick ← plus s.tick 1
  return { s with tick }

/-- `keyboard_event`, with what it reads from the port. -/
def keyboardEvent (scanCode : Byte) (s : Loop) : Loop :=
  { s with keyCode := scanCode.toNat
           game := { s.game with letterPressed := pressKey scanCode.toNat s.game.letterPressed } }

/-- `if (now == tick) … target = tick`. -/
def check (s : Loop) : Except Fault Loop :=
  if s.now = s.tick then .ok { s with intr := true, pc := .wait }
  else if s.now < s.tick then .ok { s with target := s.tick, intr := true, redraw := false, pc := .keys }
  else .error .assertion

/-- One call of `update_keypress`. -/
def keys (s : Loop) : Except Fault Loop := do
  let (found, game) ← updateKeypress s.game
  return if found then { s with game, intr := false } else { s with game, intr := true, pc := .test }

/-- `if (now % (HZ / CHARACTER_PER_SECOND) == 0) create_new_letter();` -/
def create (ry rv rt : Rand) (s : Loop) : Except Fault Loop :=
  if s.now % (hz / characterPerSecond) = 0 then do
    let game ← createNewLetter ry rv rt s.game
    return { s with game, pc := .move }
  else .ok { s with pc := .move }

/-- `if (now % (HZ / UPDATE_PER_SECOND) == 0) update_letter_pos();` -/
def move (s : Loop) : Except Fault Loop :=
  if s.now % (hz / updatePerSecond) = 0 then do
    let game ← updateLetterPos s.game
    return { s with game, pc := .count }
  else .ok { s with pc := .count }

/-- The rest of the body of the inner loop. -/
def count (s : Loop) : Except Fault Loop := do
  let redraw := if s.now % (hz / fps) = 0 then true else s.redraw
  let (realFps, numDraw) ←
    if s.now % (hz / 2) = 0 then do
      let realFps ← nowFps s.numDraw
      pure (realFps, 0)
    else pure (s.realFps, s.numDraw)
  let now ← plus s.now 1
  return { s with redraw, realFps, numDraw, now, pc := .test }

/-- `if (redraw) …` -/
def draw (font : Font) (s : Loop) : Except Fault Loop :=
  if s.redraw then do
    let numDraw ← plus s.numDraw 1
    let vbuf ← redrawScreen font s.keyCode s.realFps s.game s.vbuf
    return { s with numDraw, vbuf, video := displayBuffer vbuf s.video, pc := .wait }
  else .ok { s with pc := .wait }

/-- A step of `main_loop`. -/
def main (font : Font) (ry rv rt : Rand) (s : Loop) : Except Fault Loop :=
  match s.pc with
  | .wait => .ok { s with intr := false, pc := .check }
  | .check => s.check
  | .keys => s.keys
  | .test => .ok { s with pc := if s.now < s.target then .create else .draw }
  | .create => s.create ry rv rt
  | .move => s.move
  | .count => s.count
  | .draw => s.draw font

def step (font : Font) : Event → Loop → Except Fault Loop
  | .timer, s => s.timerEvent
  | .key scanCode, s => .ok (s.keyboardEvent scanCode)
  | .step ry rv rt, s => s.main font ry rv rt

end Loop

/-- The calls of `update_keypress` until one finds no key, with at most so many rounds. -/
def Loop.hunt (n : ℕ) (s : Loop) : Except Fault (Option Loop) :=
  doWhile (fun s => do
    let s ← s.keys
    return (decide (s.pc = .keys), s)) n s

/-- The states that a run of the game comes to. -/
inductive Run (font : Font) : Loop → Prop where
  | start (vbuf video : Frame) : Run font (.init vbuf video)
  | event {s s' : Loop} {e : Event} :
      Run font s → e.Enabled s → s.step font e = .ok s' → Run font s'

instance (s : Loop) : DecidablePred (Event.Enabled s)
  | .timer => inferInstanceAs (Decidable (_ = _))
  | .key _ => inferInstanceAs (Decidable (_ = _))
  | .step .. => inferInstanceAs (Decidable True)

/-- These events, one after the other. -/
def Loop.replay (font : Font) : List Event → Loop → Except Fault Loop
  | [], s => .ok s
  | e :: es, s =>
    if e.Enabled s then do
      let s ← s.step font e
      replay font es s
    else .error .assertion

/-! ### The letters between the steps -/

/-- The letters, when `m` steps have been done and letters were created in the ticks below `b`. -/
def Held (b m : ℤ) (g : Game) : Prop := ∃ born l, Aged b m g born ∧ Good ((b + 32) / 33).toNat g l

namespace Held

variable {b m : ℤ} {g g' : Game}

theorem init : Held 0 0 Typing.init := ⟨_, _, Aged.init, init_good⟩

theorem press (h : Held b m g) (letterPressed : Fin 26 → Bool) : Held b m { g with letterPressed } := by
  obtain ⟨born, l, haged, hgood⟩ := h
  exact ⟨born, l, ⟨haged.inj, haged.period, haged.lt, haged.age, haged.flying, haged.placed⟩,
    hgood.inUse, hgood.onScreen, hgood.count, hgood.hit_nonneg, hgood.miss_nonneg⟩

theorem card_le (h : Held b m g) (hb : b ≤ m + 1) : g.pool.live.card ≤ 14 := by
  obtain ⟨born, l, haged, hgood⟩ := h
  exact haged.card_le hgood hb

/-- The letters created are live, or were hit or missed. -/
theorem count (h : Held b m g) (hb : 0 ≤ b) : (b + 32) / 33 = g.pool.live.card + g.hit + g.miss := by
  obtain ⟨born, l, -, hgood⟩ := h
  have hcount := hgood.count
  rw [hgood.inUse.card]
  omega

theorem counters (h : Held b m g) (hb : 0 ≤ b) (hlt : b < 2 ^ 32) : IsInt g.hit ∧ IsInt g.miss := by
  have hcount := h.count hb
  obtain ⟨born, l, -, hgood⟩ := h
  have := hgood.hit_nonneg
  have := hgood.miss_nonneg
  unfold IsInt
  omega

/-- A call of `update_keypress`. -/
theorem keypress (h : Held b m g) : ∃ r g', updateKeypress g = .ok (r, g') ∧ Held b m g' := by
  obtain ⟨born, l, haged, hgood⟩ := h
  obtain ⟨r, g', hrun, hgood'⟩ := updateKeypress_ok hgood
  refine ⟨r, g', hrun, born, l, ?_, hgood'⟩
  rcases updateKeypress_cases hgood with ⟨hrun', -⟩ | ⟨t, ht, hw, -, hrun'⟩
  · obtain ⟨-, rfl⟩ := Prod.mk.inj (Except.ok.inj (hrun'.symm.trans hrun))
    exact haged
  · obtain ⟨-, rfl⟩ := Prod.mk.inj (Except.ok.inj (hrun'.symm.trans hrun))
    refine haged.turn hgood rfl fun i hi => ?_
    dsimp only
    by_cases hit : i = t
    · rw [hit, Function.update_self]
      exact .inr ⟨hw.1, rfl⟩
    · exact .inl (Function.update_of_ne hit ..)

/-- A letter is created in the first tick of a period. -/
theorem create (h : Held m m g) (hm : 0 ≤ m) (hdvd : 33 ∣ m) (ry rv rt : Rand) :
    ∃ g', createNewLetter ry rv rt g = .ok g' ∧ Held (m + 1) m g' := by
  have hcard := h.card_le (by omega)
  obtain ⟨born, l, haged, hgood⟩ := h
  have hroom : g.pool.live.card < 1000 := by omega
  obtain ⟨g', n, hrun, -⟩ := createNewLetter_ok hgood hroom ry rv rt
  obtain ⟨born', l', haged', hgood'⟩ := haged.create hgood hroom hdvd hrun
  have hk : ((m + 32) / 33).toNat + 1 = ((m + 1 + 32) / 33).toNat := by
    obtain ⟨q, rfl⟩ := hdvd
    omega
  exact ⟨g', hrun, born', l', haged', hk ▸ hgood'⟩

/-- No letter is created in the other ticks. -/
theorem skip (h : Held m m g) (hdvd : ¬33 ∣ m) : Held (m + 1) m g := by
  obtain ⟨born, l, haged, hgood⟩ := h
  have hk : ((m + 32) / 33).toNat = ((m + 1 + 32) / 33).toNat := by omega
  exact ⟨born, l, haged.mono (by omega), hk ▸ hgood⟩

/-- A step of the letters. -/
theorem move (h : Held b m g) (hlt : b < 2 ^ 32) : ∃ g', updateLetterPos g = .ok g' ∧ Held b (m + 1) g' := by
  obtain ⟨born, l, haged, hgood⟩ := h
  rcases updateLetterPos_cases hgood with ⟨g', l', hrun, hgood'⟩ | ⟨-, hfull⟩
  · exact ⟨g', hrun, born, l', haged.update hgood hrun, hgood'⟩
  · omega

end Held

/-! ### What holds in every state -/

/-- The steps of the letters that have been done. -/
def Loop.moves (s : Loop) : ℤ := if s.pc = .count then s.now + 1 else s.now

/-- The ticks for which the creation of a letter is done with. -/
def Loop.periods (s : Loop) : ℤ := if s.pc = .move ∨ s.pc = .count then s.now + 1 else s.now

/-- The inner loop has come to its end, or is about to. -/
def Loop.Caught (s : Loop) : Prop := s.pc = .draw ∨ s.pc = .test ∧ ¬s.now < s.target

/-- The invariant of the run. -/
structure Sound (s : Loop) : Prop where
  letters : Held s.periods s.moves s.game
  now_nonneg : 0 ≤ s.now
  now_le : s.now ≤ s.target
  target_le : s.target ≤ s.tick
  tick_lt : s.tick < 2 ^ 31
  lt : s.pc = .create ∨ s.pc = .move ∨ s.pc = .count ∨ s.pc = .keys → s.now < s.target
  eq : s.pc = .wait ∨ s.pc = .check ∨ s.pc = .draw → s.now = s.target
  masked : s.pc = .check → s.intr = false
  unmasked : s.pc ≠ .check → s.pc ≠ .keys → s.intr = true
  draws_nonneg : 0 ≤ s.numDraw
  draws_le : s.numDraw ≤ (s.now - 1) % 50 + 1
  draws_lt : s.Caught → s.numDraw ≤ (s.now - 1) % 50
  fps : IsInt s.realFps
  keyCode : IsInt s.keyCode

namespace Sound

variable {s : Loop} {font : Font}

theorem init (vbuf video : Frame) : Sound (.init vbuf video) where
  letters := Held.init
  now_nonneg := le_refl 0
  now_le := le_refl 0
  target_le := le_refl 0
  tick_lt := show (0 : ℤ) < 2 ^ 31 by decide
  lt h := by simp [Loop.init] at h
  eq _ := rfl
  masked h := by simp [Loop.init] at h
  unmasked _ _ := rfl
  draws_nonneg := le_refl 0
  draws_le := show (0 : ℤ) ≤ (0 - 1) % 50 + 1 by decide
  draws_lt h := by simp [Loop.init, Loop.Caught] at h
  fps := show IsInt 0 by decide
  keyCode := show IsInt 0 by decide

/-- **A timer interrupt.** -/
theorem timer (h : Sound s) (hint : s.tick + 1 < 2 ^ 31) : ∃ s', s.timerEvent = .ok s' ∧ Sound s' := by
  have h0 := h.now_nonneg
  have h1 := h.now_le
  have h2 := h.target_le
  refine ⟨{ s with tick := s.tick + 1 }, ?_, { h with target_le := ?_, tick_lt := hint }⟩
  · rw [Loop.timerEvent, plus_ok (by unfold IsInt; omega)]
    rfl
  · dsimp only
    omega

/-- **A keyboard interrupt.** -/
theorem key (h : Sound s) (scanCode : Byte) : Sound (s.keyboardEvent scanCode) := by
  refine { h with letters := h.letters.press _, keyCode := ?_ }
  have := scanCode.isLt
  unfold Loop.keyboardEvent IsInt
  dsimp only
  omega

/-- The letters where no step is being done. -/
theorem still (h : Sound s) (hmove : s.pc ≠ .move) (hcount : s.pc ≠ .count) : Held s.now s.now s.game := by
  have hl := h.letters
  rwa [Loop.periods, Loop.moves, if_neg (not_or.mpr ⟨hmove, hcount⟩), if_neg hcount] at hl

/-- The loop wakes up. -/
theorem wait (h : Sound s) (hpc : s.pc = .wait) : Sound { s with intr := false, pc := .check } :=
  { h with
    letters := h.still (by simp [hpc]) (by simp [hpc])
    lt := by simp
    eq := fun _ => h.eq (.inl hpc)
    masked := fun _ => rfl
    unmasked := fun hne => absurd rfl hne
    draws_lt := by simp [Loop.Caught] }

/-- It waits again, or has ticks to do. -/
theorem check (h : Sound s) (hpc : s.pc = .check) : ∃ s', s.check = .ok s' ∧ Sound s' := by
  have hstill := h.still (by simp [hpc]) (by simp [hpc])
  have heq := h.eq (.inr (.inl hpc))
  have hle := h.target_le
  unfold Loop.check
  by_cases hnow : s.now = s.tick
  · rw [if_pos hnow]
    exact ⟨_, rfl, { h with
      letters := hstill
      lt := by simp
      eq := fun _ => heq
      masked := by simp
      unmasked := fun _ _ => rfl
      draws_lt := by simp [Loop.Caught] }⟩
  · have hlt : s.now < s.tick := by omega
    rw [if_neg hnow, if_pos hlt]
    exact ⟨_, rfl, { h with
      letters := hstill
      now_le := hlt.le
      target_le := le_refl _
      lt := fun _ => hlt
      eq := by simp
      masked := by simp
      unmasked := fun _ _ => rfl
      draws_lt := by simp [Loop.Caught] }⟩

/-- A key is looked for. -/
theorem keys (h : Sound s) (hpc : s.pc = .keys) : ∃ s', s.keys = .ok s' ∧ Sound s' := by
  obtain ⟨r, g', hrun, hheld⟩ := (h.still (by simp [hpc]) (by simp [hpc])).keypress
  have hlt := h.lt (.inr (.inr (.inr hpc)))
  unfold Loop.keys
  rw [hrun, done_bind]
  cases r with
  | true =>
    exact ⟨_, rfl, { h with
      letters := by simpa [Loop.periods, Loop.moves, hpc] using hheld
      masked := fun hc => absurd (hpc.symm.trans hc) (by simp)
      unmasked := fun _ hk => absurd hpc hk
      draws_lt := fun hc => h.draws_lt hc }⟩
  | false =>
    exact ⟨_, rfl, { h with
      letters := hheld
      lt := by simp
      eq := by simp
      masked := by simp
      unmasked := fun _ _ => rfl
      draws_lt := fun hc => absurd hlt (by simpa [Loop.Caught] using hc) }⟩

/-- Another tick, or the frame. -/
theorem test (h : Sound s) (hpc : s.pc = .test) :
    Sound { s with pc := if s.now < s.target then .create else .draw } := by
  have hstill := h.still (by simp [hpc]) (by simp [hpc])
  have hintr := h.unmasked (by simp [hpc]) (by simp [hpc])
  have hle := h.now_le
  by_cases hlt : s.now < s.target
  · rw [if_pos hlt]
    exact { h with
      letters := hstill
      lt := fun _ => hlt
      eq := by simp
      masked := by simp
      unmasked := fun _ _ => hintr
      draws_lt := by simp [Loop.Caught] }
  · rw [if_neg hlt]
    exact { h with
      letters := hstill
      lt := by simp
      eq := fun _ => by dsimp only; omega
      masked := by simp
      unmasked := fun _ _ => hintr
      draws_lt := fun _ => h.draws_lt (.inr ⟨hpc, hlt⟩) }

/-- A letter is created, or not. -/
theorem create (h : Sound s) (hpc : s.pc = .create) (ry rv rt : Rand) :
    ∃ s', s.create ry rv rt = .ok s' ∧ Sound s' := by
  have hstill := h.still (by simp [hpc]) (by simp [hpc])
  have hintr := h.unmasked (by simp [hpc]) (by simp [hpc])
  have hlt := h.lt (.inl hpc)
  have hperiod : hz / characterPerSecond = 33 := rfl
  have hsound : ∀ game, Held (s.now + 1) s.now game → Sound { s with game, pc := .move } := fun game hg =>
    { h with
      letters := hg
      lt := fun _ => hlt
      eq := by simp
      masked := by simp
      unmasked := fun _ _ => hintr
      draws_lt := by simp [Loop.Caught] }
  unfold Loop.create
  rw [hperiod]
  by_cases hdvd : s.now % 33 = 0
  · obtain ⟨g', hrun, hheld⟩ := hstill.create h.now_nonneg (Int.dvd_of_emod_eq_zero hdvd) ry rv rt
    rw [if_pos hdvd, hrun, done_bind]
    exact ⟨_, rfl, hsound g' hheld⟩
  · rw [if_neg hdvd]
    exact ⟨_, rfl, hsound s.game (hstill.skip fun hd => hdvd (Int.emod_eq_zero_of_dvd hd))⟩

/-- All letters move. -/
theorem move (h : Sound s) (hpc : s.pc = .move) : ∃ s', s.move = .ok s' ∧ Sound s' := by
  have hheld : Held (s.now + 1) s.now s.game := by simpa [Loop.periods, Loop.moves, hpc] using h.letters
  have hintr := h.unmasked (by simp [hpc]) (by simp [hpc])
  have hlt := h.lt (.inr (.inl hpc))
  have htarget := h.target_le
  have htick := h.tick_lt
  have hperiod : hz / updatePerSecond = 1 := rfl
  obtain ⟨g', hrun, hheld'⟩ := hheld.move (by omega)
  unfold Loop.move
  rw [hperiod, if_pos (Int.emod_one _), hrun, done_bind]
  exact ⟨_, rfl, { h with
    letters := hheld'
    lt := fun _ => hlt
    eq := by simp
    masked := by simp
    unmasked := fun _ _ => hintr
    draws_lt := by simp [Loop.Caught] }⟩

theorem nowFps_ok {n : ℤ} (h0 : 0 ≤ n) (hn : n ≤ 50) : ∃ f, nowFps n = .ok f ∧ IsInt f := by
  unfold nowFps
  rw [num_int (by unfold IsInt; omega), done_bind, plus_ok (by unfold IsInt; omega), done_bind]
  refine ⟨_, rfl, ?_⟩
  split_ifs
  · decide
  · unfold IsInt
    omega

/-- The tick is done. -/
theorem count (h : Sound s) (hpc : s.pc = .count) : ∃ s', s.count = .ok s' ∧ Sound s' := by
  have hheld : Held (s.now + 1) (s.now + 1) s.game := by simpa [Loop.periods, Loop.moves, hpc] using h.letters
  have hintr := h.unmasked (by simp [hpc]) (by simp [hpc])
  have hlt := h.lt (.inr (.inr (.inl hpc)))
  have hnow := h.now_nonneg
  have htarget := h.target_le
  have htick := h.tick_lt
  have hd0 := h.draws_nonneg
  have hd1 := h.draws_le
  have hhalf : hz / 2 = 50 := rfl
  have hsound : ∀ redraw realFps numDraw, IsInt realFps → 0 ≤ numDraw → numDraw ≤ s.now % 50 →
      Sound { s with redraw, realFps, numDraw, now := s.now + 1, pc := .test } := fun redraw realFps numDraw hf h0 h1 =>
    { h with
      letters := hheld
      now_nonneg := by dsimp only; omega
      now_le := by dsimp only; omega
      lt := by simp
      eq := by simp
      masked := by simp
      unmasked := fun _ _ => hintr
      draws_nonneg := h0
      draws_le := by dsimp only; omega
      draws_lt := fun _ => by dsimp only; omega
      fps := hf }
  unfold Loop.count
  dsimp only
  rw [hhalf]
  by_cases hzero : s.now % 50 = 0
  · obtain ⟨f, hf, hint⟩ := nowFps_ok hd0 (by omega)
    rw [if_pos hzero, hf, done_bind, pure_bind, plus_ok (by unfold IsInt; omega), done_bind]
    exact ⟨_, rfl, hsound _ f 0 hint (le_refl 0) (by omega)⟩
  · rw [if_neg hzero, pure_bind, plus_ok (by unfold IsInt; omega), done_bind]
    exact ⟨_, rfl, hsound _ s.realFps s.numDraw h.fps hd0 (by omega)⟩

/-- What is to be drawn fits on the screen. -/
theorem frame (h : Sound s) (hpc : s.pc = .draw) : ∃ k l, Good k s.game l ∧
    (∀ i ∈ l, (s.game.letters i).Placed) ∧ ∀ t ∈ counters s.keyCode s.realFps s.game, t.Fits := by
  have hstill := h.still (by simp [hpc]) (by simp [hpc])
  have hnow := h.now_le
  have htarget := h.target_le
  have htick := h.tick_lt
  obtain ⟨hhit, hmiss⟩ := hstill.counters h.now_nonneg (by omega)
  obtain ⟨born, l, haged, hgood⟩ := hstill
  exact ⟨_, l, hgood, fun i hi => haged.placed i ((hgood.inUse.mem_iff i).mp hi),
    counters_fit h.keyCode h.fps hhit hmiss⟩

/-- The frame is drawn. -/
theorem draw (h : Sound s) (hpc : s.pc = .draw) (font : Font) : ∃ s', s.draw font = .ok s' ∧ Sound s' := by
  have hstill := h.still (by simp [hpc]) (by simp [hpc])
  have hintr := h.unmasked (by simp [hpc]) (by simp [hpc])
  have heq := h.eq (.inr (.inr hpc))
  have hd0 := h.draws_nonneg
  have hd1 := h.draws_lt (.inl hpc)
  have htarget := h.target_le
  have htick := h.tick_lt
  have hsound : ∀ numDraw vbuf video, 0 ≤ numDraw → numDraw ≤ (s.now - 1) % 50 + 1 →
      Sound { s with numDraw, vbuf, video, pc := .wait } := fun numDraw vbuf video h0 h1 =>
    { h with
      letters := hstill
      lt := by simp
      eq := fun _ => heq
      masked := by simp
      unmasked := fun _ _ => hintr
      draws_nonneg := h0
      draws_le := h1
      draws_lt := by simp [Loop.Caught] }
  unfold Loop.draw
  by_cases hredraw : s.redraw = true
  · obtain ⟨k, l, hgood, hplaced, hcounters⟩ := h.frame hpc
    rw [if_pos hredraw, plus_ok (by unfold IsInt; omega), done_bind, redrawScreen_eq hgood hplaced hcounters, done_bind]
    exact ⟨_, rfl, hsound _ _ _ (by omega) (by omega)⟩
  · rw [if_neg hredraw]
    exact ⟨_, rfl, hsound _ _ _ hd0 (by omega)⟩

/-- **A step of the loop.** -/
theorem main (h : Sound s) (font : Font) (ry rv rt : Rand) : ∃ s', s.main font ry rv rt = .ok s' ∧ Sound s' := by
  unfold Loop.main
  cases hpc : s.pc with
  | wait => exact ⟨_, rfl, h.wait hpc⟩
  | check => exact h.check hpc
  | keys => exact h.keys hpc
  | test => exact ⟨_, rfl, h.test hpc⟩
  | create => exact h.create hpc ry rv rt
  | move => exact h.move hpc
  | count => exact h.count hpc
  | draw => exact h.draw hpc font

/-- **An event** keeps everything, if `tick` does not overflow. -/
theorem step (h : Sound s) (font : Font) (e : Event) (htick : s.tick + 1 < 2 ^ 31) :
    ∃ s', s.step font e = .ok s' ∧ Sound s' := by
  cases e with
  | timer => exact h.timer htick
  | key scanCode => exact ⟨_, rfl, h.key scanCode⟩
  | step ry rv rt => exact h.main font ry rv rt

/-- What an event leads to is sound, also when the next tick overflows. -/
theorem of_step (h : Sound s) {e : Event} {s' : Loop} (hs : s.step font e = .ok s') : Sound s' := by
  cases e with
  | timer =>
    obtain ⟨tick, ht, hs⟩ := of_bind (show (plus s.tick 1 >>= _) = _ from hs)
    obtain rfl := Except.ok.inj hs
    obtain rfl := of_num_int ht
    by_cases hint : IsInt (s.tick + 1)
    · obtain ⟨s', hs', hsound⟩ := h.timer hint.2
      rw [Loop.timerEvent, ht, done_bind] at hs'
      obtain rfl := Except.ok.inj hs'
      exact hsound
    · exact absurd (ht.symm.trans (num_overflow hint)) (by simp)
  | key scanCode =>
    obtain rfl := Except.ok.inj hs
    exact h.key scanCode
  | step ry rv rt =>
    obtain ⟨s'', hs'', hsound⟩ := h.main font ry rv rt
    obtain rfl := Except.ok.inj (hs''.symm.trans hs)
    exact hsound

end Sound

/-! ### Runs -/

/-- What the calls do to the game is what the loop does to it. -/
theorem Loop.hunt_eq {s : Loop} (n : ℕ) (hpc : s.pc = .keys) : s.hunt n =
    (keyLoop n s.game).map (Option.map fun game => { s with game, intr := true, pc := .test }) := by
  induction n generalizing s with
  | zero => rfl
  | succ n ih =>
    unfold hunt keyLoop at *
    rw [doWhile, doWhile]
    cases hrun : updateKeypress s.game with
    | error e => rw [keys, hrun]; rfl
    | ok r =>
      obtain ⟨found, game⟩ := r
      rw [keys, hrun, done_bind]
      cases found with
      | false => rfl
      | true =>
        have hfound : decide (s.pc = .keys) = true := decide_eq_true hpc
        simp only [if_true, pure, Except.pure, done_bind, hfound]
        exact ih (s := { s with game, intr := false }) hpc

namespace Run

variable {font : Font} {s : Loop}

theorem sound (h : Run font s) : Sound s := by
  induction h with
  | start vbuf video => exact Sound.init vbuf video
  | event _ _ hs ih => exact ih.of_step hs

/-- A run that is played is a run. -/
theorem replay {es : List Event} {s' : Loop} (h : Run font s) (hs : s.replay font es = .ok s') : Run font s' := by
  induction es generalizing s with
  | nil => exact Except.ok.inj hs ▸ h
  | cons e es ih =>
    rw [Loop.replay] at hs
    split_ifs at hs with he
    obtain ⟨t, ht, hs⟩ := of_bind hs
    exact ih (h.event he ht) hs

/-- The first tick is seen. -/
theorem seen (font : Font) (vbuf video : Frame) :
    Run font ⟨init, 1, 0, 0, 1, 0, false, 0, vbuf, video, true, .keys⟩ := by
  have htick : Run font ⟨init, 1, 0, 0, 0, 0, false, 0, vbuf, video, true, .wait⟩ :=
    (start vbuf video).event (e := .timer) rfl rfl
  have hwait : Run font ⟨init, 1, 0, 0, 0, 0, false, 0, vbuf, video, false, .check⟩ :=
    htick.event (e := .step 0 0 0) trivial rfl
  exact hwait.event (e := .step 0 0 0) trivial rfl

/-- And its frame is drawn. -/
theorem first (font : Font) (vbuf video : Frame) : ∃ s, Run font s ∧ s.pc = .draw ∧ s.redraw = true := by
  have htest : Run font ⟨init, 1, 0, 0, 1, 0, false, 0, vbuf, video, true, .test⟩ :=
    (seen font vbuf video).event (e := .step 0 0 0) trivial rfl
  have hcreate : Run font ⟨init, 1, 0, 0, 1, 0, false, 0, vbuf, video, true, .create⟩ :=
    htest.event (e := .step 0 0 0) trivial rfl
  obtain ⟨g, hg, hheld⟩ := Held.init.create (le_refl 0) (dvd_zero 33) 0 0 0
  have hmove : Run font ⟨g, 1, 0, 0, 1, 0, false, 0, vbuf, video, true, .move⟩ :=
    hcreate.event (e := .step 0 0 0) trivial (show (createNewLetter 0 0 0 init >>= _) = _ by rw [hg]; rfl)
  obtain ⟨g', hg', -⟩ := hheld.move (by decide)
  have hcount : Run font ⟨g', 1, 0, 0, 1, 0, false, 0, vbuf, video, true, .count⟩ :=
    hmove.event (e := .step 0 0 0) trivial (show (updateLetterPos g >>= _) = _ by rw [hg']; rfl)
  have hdone : Run font ⟨g', 1, 0, 1, 1, 0, true, 1, vbuf, video, true, .test⟩ :=
    hcount.event (e := .step 0 0 0) trivial rfl
  have hdraw : Run font ⟨g', 1, 0, 1, 1, 0, true, 1, vbuf, video, true, .draw⟩ :=
    hdone.event (e := .step 0 0 0) trivial rfl
  exact ⟨_, hdraw, rfl, rfl⟩

/-- `a` and twice `b` have been created, both keys go down, and the calls of `update_keypress` begin. -/
def aiming : List Event :=
  List.replicate 67 .timer ++ List.replicate 135 (.step 0 0 0) ++ List.replicate 138 (.step 0 999 1) ++
    [.key 30, .key 48, .timer, .step 0 0 0, .step 0 0 0]

/-- Two of the letters are hit and leave, and the loop waits again. -/
def waiting : List Event :=
  aiming ++ List.replicate 9 (.step 0 0 0) ++ List.replicate 40 .timer ++ List.replicate 165 (.step 0 0 0)

/-- The loop after these events. -/
def played (es : List Event) : Loop :=
  match (Loop.init (fun _ => 0) fun _ => 0).replay (fun _ _ => 0) es with
  | .ok s => s
  | .error _ => .init (fun _ => 0) fun _ => 0

theorem of_played {es : List Event}
    (hok : ((Loop.init (fun _ => 0) fun _ => 0).replay (fun _ _ => 0) es).isOk = true) :
    Run (fun _ _ => 0) (played es) := by
  unfold played
  cases hs : (Loop.init (fun _ => 0) fun _ => 0).replay (fun _ _ => 0) es with
  | error e =>
    rw [hs] at hok
    exact nomatch hok
  | ok s => exact (start _ _).replay hs

theorem aimed : Run (fun _ _ => 0) (played aiming) := of_played (by decide +kernel)

/-- **The game goes on**, whatever the interrupts and `rand` do: no assertion fails, nothing
overflows and no pixel is outside the buffer, as long as `tick` itself does not overflow. -/
theorem steps (h : Run font s) (htick : s.tick + 1 < 2 ^ 31) (e : Event) : ∃ s', s.step font e = .ok s' := by
  obtain ⟨s', hs, -⟩ := h.sound.step font e htick
  exact ⟨s', hs⟩

theorem steps_aimed : (played aiming).game.pool.live.card = 3 ∧ (played aiming).game.letterPressed 0 = true ∧
    ∃ s', (played aiming).step (fun _ _ => 0) (.step 0 0 0) = .ok s' :=
  ⟨by decide +kernel, by decide +kernel, aimed.steps (by decide +kernel) (.step 0 0 0)⟩

/-- **At most 14 letters** are live, and every letter is live, was hit or was missed. Where the loop
waits, one letter was created in every 33 ticks that it had seen, and interrupts are enabled. -/
theorem letters (h : Run font s) : s.game.pool.live.card ≤ 14 ∧ s.now ≤ s.tick ∧
    (s.pc = .wait → s.intr = true ∧ s.now = s.target ∧
      (s.target + 32) / 33 = s.game.pool.live.card + s.game.hit + s.game.miss) := by
  have hsound := h.sound
  refine ⟨hsound.letters.card_le ?_, hsound.now_le.trans hsound.target_le, fun hpc => ?_⟩
  · unfold Loop.periods Loop.moves
    split_ifs <;> omega
  · have heq := hsound.eq (.inl hpc)
    have hcount := (hsound.still (by simp [hpc]) (by simp [hpc])).count hsound.now_nonneg
    exact ⟨hsound.unmasked (by simp [hpc]) (by simp [hpc]), heq, heq ▸ hcount⟩

theorem letters_waiting : (played waiting).game.pool.live.card = 2 ∧ (played waiting).game.hit = 2 ∧
    ((played waiting).target + 32) / 33 = (played waiting).game.pool.live.card + (played waiting).game.hit +
      (played waiting).game.miss :=
  ⟨by decide +kernel, by decide +kernel, ((letters (of_played (by decide +kernel))).2.2 (by decide +kernel)).2.2⟩

/-- **The frame** that is drawn is the texts of the live letters and the counters, one over
the other, on a black screen; all of them are inside. -/
theorem drawn (h : Run font s) (hpc : s.pc = .draw) (hredraw : s.redraw = true) : ∃ s' l,
    s.draw font = .ok s' ∧ DList s.game.pool.next s.game.pool.prev s.game.head l ∧ (∀ i, i ∈ l ↔ i ∈ s.game.pool.live) ∧
      (∀ t ∈ texts s.keyCode s.realFps s.game l, t.Fits) ∧
      s'.video = displayBuffer (paint (layers (Text.layer font) (texts s.keyCode s.realFps s.game l)) fun _ => 0)
        s.video := by
  have hsound := h.sound
  have hd0 := hsound.draws_nonneg
  have hd1 := hsound.draws_le
  obtain ⟨k, l, hgood, hplaced, hcounters⟩ := hsound.frame hpc
  have hdraw : ∃ s', s.draw font = .ok s' ∧ s'.video = displayBuffer
      (paint (layers (Text.layer font) (texts s.keyCode s.realFps s.game l)) (prepareBuffer s.vbuf)) s.video := by
    rw [Loop.draw, if_pos hredraw, plus_ok (by unfold IsInt; omega), done_bind, redrawScreen_eq hgood hplaced hcounters,
      done_bind]
    exact ⟨_, rfl, rfl⟩
  obtain ⟨s', hrun, hvideo⟩ := hdraw
  refine ⟨s', l, hrun, hgood.inUse.list, hgood.inUse.mem_iff, texts_fit hgood hplaced hcounters, hvideo.trans ?_⟩
  funext n
  unfold displayBuffer
  by_cases hn : n < scrSize
  · simp only [if_pos hn, paint, prepareBuffer]
  · simp only [if_neg hn]

theorem drawn_first : ∃ (s s' : Loop) (l : List Fly), s.draw (fun _ _ => 255) = .ok s' ∧
    s'.video = displayBuffer (paint (layers (Text.layer fun _ _ => 255) (texts s.keyCode s.realFps s.game l))
      fun _ => 0) s.video := by
  obtain ⟨s, hrun, hpc, hredraw⟩ := first (fun _ _ => 255) (fun _ => 0) fun _ => 0
  obtain ⟨s', l, hs', -, -, -, hvideo⟩ := drawn hrun hpc hredraw
  exact ⟨s, s', l, hs', hvideo⟩

/-- **The keys.** The calls of `update_keypress` end, and every key that is down has hit the lowest
of the letters that carry it and fall, if there is one; nothing else has changed. -/
theorem keys_hit (h : Run font s) (hpc : s.pc = .keys) : ∃ l game,
    DList s.game.pool.next s.game.pool.prev s.game.head l ∧ (∀ i, i ∈ l ↔ i ∈ s.game.pool.live) ∧
      (∀ n, 26 < n → s.hunt n = .ok (some { s with game, intr := true, pc := .test })) ∧
      KeysOnly l s.game game ∧
      ∀ c, KeyShot l s.game game c ∨ KeyKept l s.game game c ∧
        (s.game.letterPressed c = true → ∀ i ∈ l, (s.game.letters i).key = c → ¬0 < (s.game.letters i).v) := by
  obtain ⟨born, l, -, hgood⟩ := h.sound.still (by simp [hpc]) (by simp [hpc])
  obtain ⟨game, hend, hhunt, hall⟩ := keyLoop_shoots hgood
  refine ⟨l, game, hgood.inUse.list, hgood.inUse.mem_iff, fun n hn => ?_, hhunt.toKeysOnly, hall⟩
  rw [Loop.hunt_eq n hpc, hend n hn]
  rfl

/-- `a` is hit. -/
theorem keys_aimed : ∃ l game,
    (played aiming).hunt 27 = .ok (some { played aiming with game, intr := true, pc := .test }) ∧
      KeysOnly l (played aiming).game game ∧ KeyShot l (played aiming).game game 0 := by
  obtain ⟨l, game, -, hmem, hend, honly, hall⟩ := keys_hit aimed (by decide +kernel)
  refine ⟨l, game, hend 27 (by decide), honly, (hall 0).resolve_right fun hkept => ?_⟩
  have hfirst : (0 : Fly) ∈ l := (hmem 0).mpr (by decide +kernel)
  exact hkept.2 (by decide +kernel) 0 hfirst (by decide +kernel) (by decide +kernel)

end Run

end Typing

end Nemu
