/-
# The falling letters

`effect.c` and `keyboard.c` of the typing game: letters are created at the top,
fall, are hit when their key is down, and leave the screen at the top (hit) or at
the bottom (missed). They are nodes of a pool, in a doubly linked list from `head`;
a letter that leaves is freed while the list is gone through.

The counters `hit` and `miss` are of type `int`: the list stays as it should be in
every run, and every call succeeds as long as fewer than 2^31 letters have been
created (`reached_letters`).

Key definitions: `Game`, `createNewLetter`, `updateLetterPos`, `updateKeypress`, `Reached`, `Good`.
Key theorems: `createNewLetter_ok`, `updateLetterPos_cases`, `updateKeypress_cases`, `reached_letters`.
-/
import Nemu.Float.Sqrt
import Nemu.Game.LinkList

namespace Nemu

namespace Typing

open LinkList Fixed

/-- `fly_t`, where it is not null. -/
abbrev Fly := Node 1000

/-- The fields of a letter but its links; `x` and `v` are fixed-point numbers. -/
structure Letter where
  x : ℤ
  y : ℤ
  text : ℤ
  v : ℤ

/-- Why a call does not return. -/
inductive Fault where
  | assertion
  | endless
  | arith (t : Trouble)
  deriving DecidableEq

/-- The variables of the game. -/
structure Game where
  pool : Pool 1000
  letters : Fly → Letter
  head : Option Fly
  hit : ℤ
  miss : ℤ
  letterPressed : Fin 26 → Bool

/-- At the start. -/
def init : Game := ⟨Pool.init, fun _ => ⟨0, 0, 0, 0⟩, none, 0, 0, fun _ => false⟩

/-- What `rand` returns. -/
abbrev Rand := Fin (2 ^ 31)

scoped instance randMax : NeZero (2 ^ 31) := ⟨by decide⟩

/-- `SCR_WIDTH` and `SCR_HEIGHT`. -/
def scrWidth : ℕ := 320

def scrHeight : ℤ := 200

/-- An arithmetic operation. -/
def num (a : Except Trouble ℤ) : Except Fault ℤ :=
  match a with
  | .ok a => .ok a
  | .error t => .error (.arith t)

/-- A call with an assertion in it. -/
def checked {α : Type} (a : Option α) : Except Fault α :=
  match a with
  | some a => .ok a
  | none => .error .assertion

/-! ### The keyboard -/

/-- `letter_code`. -/
def letterCode : List ℤ :=
  [30, 48, 46, 32, 18, 33, 34, 35, 23, 36, 37, 38, 50, 49, 24, 25, 16, 19, 31, 20, 22, 47, 17, 45, 21, 44]

/-- `press_key`. -/
def pressKey (scanCode : ℤ) (letterPressed : Fin 26 → Bool) (i : Fin 26) : Bool :=
  if letterCode[i.val]? = some scanCode then true else letterPressed i

/-- `release_key`. -/
def releaseKey (index : ℤ) (letterPressed : Fin 26 → Bool) : Except Fault (Fin 26 → Bool) :=
  if h : 0 ≤ index ∧ index < 26 then .ok (Function.update letterPressed ⟨index.toNat, by omega⟩ false)
  else .error .assertion

/-- `query_key`. -/
def queryKey (index : ℤ) (letterPressed : Fin 26 → Bool) : Except Fault Bool :=
  if h : 0 ≤ index ∧ index < 26 then .ok (letterPressed ⟨index.toNat, by omega⟩) else .error .assertion

/-! ### The calls -/

/-- `F_div_F(int2F(rand() % 1000), int2F(2000)) + f2F(0.5)`. -/
def newSpeed (r : Rand) : Except Fault ℤ := do
  let a ← num (int2F (r.val % 1000 : ℕ))
  let b ← num (int2F 2000)
  let q ← num (fDivF a b)
  let half ← num (f2F 0x3f000000)
  num (int (q + half))

/-- A new node, at the front of the list. -/
def newHead (s : Game) : Except Fault (Fly × Pool 1000) :=
  match s.head with
  | none => checked s.pool.new
  | some head => do
    let (now, pool) ← checked s.pool.new
    let pool ← checked (pool.insert none (some head) now)
    return (now, pool)

/-- `create_new_letter`, with what `rand` returns. -/
def createNewLetter (ry rv rt : Rand) (s : Game) : Except Fault Game := do
  let (head, pool) ← newHead s
  let y : ℕ := ry.val % (scrWidth / 8 - 2) * 8 + 8
  let v ← newSpeed rv
  let text : ℕ := rt.val % 26
  let letterPressed ← releaseKey text s.letterPressed
  let letters := Function.update s.letters head ⟨0, y, text, v⟩
  return { s with pool, letters, head := some head, letterPressed }

/-- `it->x < 0 || it->x + f2F(7.9) > int2F(SCR_HEIGHT)`. -/
def offScreen (x : ℤ) : Except Fault Bool :=
  if x < 0 then .ok true
  else do
    let size ← num (f2F 0x40fccccd)
    let bottom ← num (int (x + size))
    let height ← num (int2F scrHeight)
    return decide (bottom > height)

/-- `if (it->x < 0) hit ++; else miss ++;`. -/
def countOut (x : ℤ) (s : Game) : Except Fault Game :=
  if x < 0 then do
    let hit ← num (int (s.hit + 1))
    return { s with hit }
  else do
    let miss ← num (int (s.miss + 1))
    return { s with miss }

/-- The body of the loop of `update_letter_pos`. -/
def moveLetter (it : Fly) (next : Option Fly) (s : Game) : Except Fault Game := do
  let l := s.letters it
  let x ← num (int (l.x + l.v))
  let s := { s with letters := Function.update s.letters it { l with x } }
  let out ← offScreen x
  if out then
    let s ← countOut x s
    return { s with pool := (s.pool.remove it).free it, head := if some it = s.head then next else s.head }
  else return s

/-- The loop of `update_letter_pos`, with at most so many rounds. -/
def moveLetters : ℕ → Option Fly → Game → Except Fault Game
  | _, none, s => .ok s
  | 0, some _, _ => .error .endless
  | n + 1, some it, s => do
    let next := s.pool.next it
    let s ← moveLetter it next s
    moveLetters n next s

/-- As many rounds as there are nodes. -/
def rounds : ℕ := 1001

/-- `update_letter_pos`. -/
def updateLetterPos (s : Game) : Except Fault Game := moveLetters rounds s.head s

/-- `it->v > 0 && it->x > min && query_key(it->text)`. -/
def better (s : Game) (it : Fly) (min : ℤ) : Except Fault Bool :=
  if (s.letters it).v > 0 ∧ (s.letters it).x > min then queryKey (s.letters it).text s.letterPressed
  else .ok false

/-- The loop of `update_keypress`, with at most so many rounds. -/
def findTarget (s : Game) : ℕ → Option Fly → ℤ → Option Fly → Except Fault (Option Fly)
  | _, none, _, target => .ok target
  | 0, some _, _, _ => .error .endless
  | n + 1, some it, min, target => do
    let l := s.letters it
    if 0 ≤ l.text ∧ l.text < 26 then
      if ← better s it min then findTarget s n (s.pool.next it) l.x (some it)
      else findTarget s n (s.pool.next it) min target
    else .error .assertion

/-- `update_keypress`. -/
def updateKeypress (s : Game) : Except Fault (Bool × Game) := do
  let hundred ← num (int2F 100)
  let min ← num (int (-hundred))
  let target ← findTarget s rounds s.head min none
  match target with
  | some target =>
    let l := s.letters target
    let letterPressed ← releaseKey l.text s.letterPressed
    let three ← num (int2F 3)
    let v ← num (int (-three))
    return (true, { s with letters := Function.update s.letters target { l with v }, letterPressed })
  | none => return (false, s)

/-! ### Runs -/

/-- The calls, and a keyboard event between them. -/
inductive Call where
  | create (ry rv rt : Rand)
  | update
  | keypress
  | key (scanCode : ℤ)

/-- The letters that a call creates. -/
def Call.created : Call → ℕ
  | .create .. => 1
  | _ => 0

/-- A call, without its result. -/
def Call.run : Call → Game → Except Fault Game
  | .create ry rv rt, s => createNewLetter ry rv rt s
  | .update, s => updateLetterPos s
  | .keypress, s => do
    let r ← updateKeypress s
    return r.2
  | .key scanCode, s => .ok { s with letterPressed := pressKey scanCode s.letterPressed }

/-- A letter is created only while fewer than 1000 are live. -/
def Allowed (s : Game) : Call → Prop
  | .create .. => s.pool.live.card < 1000
  | _ => True

/-- What allowed calls come to, with the number of letters that have been created. -/
inductive Reached : ℕ → Game → Prop where
  | start : Reached 0 init
  | call {k : ℕ} {s s' : Game} {c : Call} :
      Reached k s → Allowed s c → c.run s = .ok s' → Reached (k + c.created) s'

instance (s : Game) : DecidablePred (Allowed s)
  | .create .. => inferInstanceAs (Decidable (_ < _))
  | .update => inferInstanceAs (Decidable True)
  | .keypress => inferInstanceAs (Decidable True)
  | .key _ => inferInstanceAs (Decidable True)

/-- These calls, one after the other, as long as they are allowed. -/
def replay : List Call → Game → Except Fault Game
  | [], s => .ok s
  | c :: cs, s =>
    if Allowed s c then do
      let s ← c.run s
      replay cs s
    else .error .assertion

/-! ### The arithmetic -/

@[simp] theorem done_bind {α β : Type} (a : α) (f : α → Except Fault β) : (.ok a >>= f) = f a := rfl

@[simp] theorem fault_bind {α β : Type} (e : Fault) (f : α → Except Fault β) :
    (.error e >>= f) = .error e := rfl

@[simp] theorem num_ok (a : ℤ) : num (.ok a) = .ok a := rfl

theorem num_int {n : ℤ} (h : IsInt n) : num (int n) = .ok n := by
  rw [int_ok h]
  rfl

theorem num_overflow {n : ℤ} (h : ¬IsInt n) : num (int n) = .error (.arith .overflow) := by
  rw [int_error h]
  rfl

theorem num_int2F {n : ℤ} (h : IsInt (n * 65536)) : num (int2F n) = .ok (n * 65536) := by
  have hshift : int2F n = int (n * 65536) := rfl
  rw [hshift, num_int h]

/-- `f2F(7.9)`. -/
theorem size_eq : num (f2F 0x40fccccd) = .ok 517734 := by decide

/-- `f2F(0.5)`. -/
theorem half_eq : num (f2F 0x3f000000) = .ok 32768 := by decide

/-- A new letter falls at half a unit a step, and at less than one. -/
theorem newSpeed_ok (r : Rand) : ∃ v, newSpeed r = .ok v ∧ 32768 ≤ v ∧ v < 65536 := by
  have hlt : r.val % 1000 < 1000 := Nat.mod_lt _ (by decide)
  unfold newSpeed
  generalize r.val % 1000 = n at hlt
  have hdiv : fDivF ((n : ℤ) * 65536) (2000 * 65536) = .ok ((n * 65536 * 65536 / 131072000 : ℕ) : ℤ) := by
    have hq : n * 65536 * 65536 / 131072000 < 2 ^ 31 := by omega
    have hroom : Roomy (n * 65536) 131072000 0 16 := roomy_of_le (by decide) (by decide) _ _ _
    have hx : ((n * 65536 : ℕ) : ℤ) = (n : ℤ) * 65536 := Nat.cast_mul ..
    rw [← hx]
    exact fDivF_of_nonneg (by omega) (by decide) (by decide) hroom hq
  have hq : n * 65536 * 65536 / 131072000 < 32768 := by omega
  generalize n * 65536 * 65536 / 131072000 = q at hdiv hq
  refine ⟨q + 32768, ?_, by omega, by omega⟩
  rw [num_int2F (by unfold IsInt; omega), done_bind, num_int2F (by unfold IsInt; omega), done_bind, hdiv]
  rw [num_ok, done_bind, half_eq, done_bind, num_int (by unfold IsInt; omega)]

/-- Off the screen, for a place that is not far from it. -/
theorem offScreen_eq {x : ℤ} (hlo : -2 ^ 20 ≤ x) (hhi : x < 2 ^ 25) :
    offScreen x = .ok (decide (x < 0 ∨ x + 517734 > 13107200)) := by
  unfold offScreen
  by_cases hneg : x < 0
  · rw [if_pos hneg, decide_eq_true (.inl hneg)]
  · have hheight : num (int2F scrHeight) = .ok 13107200 := by decide
    rw [if_neg hneg, size_eq, done_bind, num_int (by unfold IsInt; omega), done_bind, hheight, done_bind]
    simp [hneg, pure, Except.pure]

/-! ### What every call keeps -/

/-- A letter on the screen. -/
structure Letter.OnScreen (l : Letter) : Prop where
  x_nonneg : 0 ≤ l.x
  x_le : l.x ≤ 12589466
  text_nonneg : 0 ≤ l.text
  text_lt : l.text < 26
  v_ge : -196608 ≤ l.v
  v_lt : l.v < 65536

/-- The letters `l` are live, and every letter of the `k` that have been created is
live, or was hit, or was missed. -/
structure Good (k : ℕ) (s : Game) (l : List Fly) : Prop where
  inUse : InUse s.pool s.head l
  onScreen : ∀ i ∈ l, (s.letters i).OnScreen
  count : (k : ℤ) = l.length + s.hit + s.miss
  hit_nonneg : 0 ≤ s.hit
  miss_nonneg : 0 ≤ s.miss

section Calls

variable {k : ℕ} {s : Game} {l pre post : List Fly} {it : Fly}

theorem init_good : Good 0 init [] :=
  ⟨InUse.init, fun _ hi => (List.not_mem_nil hi).elim, rfl, le_refl _, le_refl _⟩

/-- The pool has fewer live nodes than rounds. -/
theorem Good.length_le (h : Good k s l) : l.length ≤ rounds := by
  rw [← h.inUse.card]
  exact (Finset.card_le_univ _).trans (by rw [Fintype.card_fin]; decide)

/-- A node in front of the list. -/
theorem newHead_ok (h : Good k s l) (hroom : s.pool.live.card < 1000) :
    ∃ n pool, newHead s = .ok (n, pool) ∧ n ∉ l ∧ InUse pool (some n) (n :: l) := by
  obtain ⟨hin, -, -, -, -⟩ := h
  unfold newHead
  cases hhead : s.head with
  | none =>
    rw [hhead] at hin
    obtain ⟨rfl, n, pool, hnew, hin'⟩ := hin.first hroom
    rw [hnew]
    exact ⟨n, pool, rfl, List.not_mem_nil, hin'⟩
  | some head =>
    rw [hhead] at hin
    obtain ⟨n, pool, pool', hnew, hinsert, hn, hin'⟩ := hin.front hroom
    dsimp only
    rw [hnew]
    simp only [checked, done_bind, hinsert]
    exact ⟨n, pool', rfl, hn, hin'⟩

/-- **A letter is created.** -/
theorem createNewLetter_ok (h : Good k s l) (hroom : s.pool.live.card < 1000) (ry rv rt : Rand) :
    ∃ s' n, createNewLetter ry rv rt s = .ok s' ∧ Good (k + 1) s' (n :: l) := by
  obtain ⟨n, pool, hnew, hn, hin⟩ := newHead_ok h hroom
  obtain ⟨v, hv, hvlo, hvhi⟩ := newSpeed_ok rv
  have htext : rt.val % 26 < 26 := Nat.mod_lt _ (by decide)
  unfold createNewLetter
  generalize rt.val % 26 = text at htext
  have hrelease : releaseKey (text : ℕ) s.letterPressed =
      .ok (Function.update s.letterPressed ⟨((text : ℕ) : ℤ).toNat, by omega⟩ false) := dif_pos ⟨by omega, by omega⟩
  rw [hnew, done_bind]
  dsimp only
  rw [hv, done_bind, hrelease, done_bind]
  refine ⟨_, n, rfl, hin, fun i hi => ?_, ?_, h.hit_nonneg, h.miss_nonneg⟩
  · dsimp only
    rcases List.mem_cons.mp hi with rfl | hil
    · rw [Function.update_self]
      constructor <;> dsimp only <;> omega
    · have hne : i ≠ n := by
        rintro rfl
        exact hn hil
      rw [Function.update_of_ne hne]
      exact h.onScreen i hil
  · have hcount := h.count
    rw [List.length_cons]
    push_cast
    omega

theorem countOut_hit {x : ℤ} (hx : x < 0) (hint : IsInt (s.hit + 1)) :
    countOut x s = .ok { s with hit := s.hit + 1 } := by
  rw [countOut, if_pos hx, num_int hint]
  rfl

theorem countOut_full {x : ℤ} (hx : x < 0) (hint : ¬IsInt (s.hit + 1)) :
    countOut x s = .error (.arith .overflow) := by
  rw [countOut, if_pos hx, num_overflow hint]
  rfl

/-- A letter is counted when it leaves, unless its counter is full. -/
theorem countOut_cases (x : ℤ) (s : Game) (hhit : 0 ≤ s.hit) (hmiss : 0 ≤ s.miss) :
    (∃ hit miss, countOut x s = .ok { s with hit, miss } ∧ hit + miss = s.hit + s.miss + 1 ∧ 0 ≤ hit ∧ 0 ≤ miss) ∨
      (countOut x s = .error (.arith .overflow) ∧ 2 ^ 31 ≤ s.hit + s.miss + 1) := by
  by_cases hx : x < 0
  · by_cases hint : IsInt (s.hit + 1)
    · exact .inl ⟨s.hit + 1, s.miss, countOut_hit hx hint, by omega, by omega, hmiss⟩
    · have hfull := countOut_full hx hint
      unfold IsInt at hint
      exact .inr ⟨hfull, by omega⟩
  · unfold countOut
    rw [if_neg hx]
    by_cases hint : IsInt (s.miss + 1)
    · rw [num_int hint]
      exact .inl ⟨s.hit, s.miss + 1, rfl, by omega, hhit, by omega⟩
    · rw [num_overflow hint]
      unfold IsInt at hint
      exact .inr ⟨rfl, by omega⟩

/-- **A letter moves.** It stays in the list, or leaves it; or a counter overflows. -/
theorem moveLetter_cases (h : Good k s (pre ++ it :: post)) :
    (∃ s' pre', moveLetter it (s.pool.next it) s = .ok s' ∧ Good k s' (pre' ++ post)) ∨
      (moveLetter it (s.pool.next it) s = .error (.arith .overflow) ∧ 2 ^ 31 ≤ (k : ℤ)) := by
  have hit : (s.letters it).OnScreen := h.onScreen it (by simp)
  obtain ⟨hx0, hx1, -, -, hv0, hv1⟩ := hit
  have hnodup := List.nodup_middle.mp h.inUse.list.nodup
  have hitl : it ∉ pre ++ post := (List.nodup_cons.mp hnodup).1
  have hcount := h.count
  have hlen : (pre ++ it :: post).length = (pre ++ post).length + 1 := by
    rw [List.length_append, List.length_append, List.length_cons, Nat.add_assoc]
  rw [hlen] at hcount
  push_cast at hcount
  unfold moveLetter
  dsimp only
  rw [num_int (by unfold IsInt; omega), done_bind]
  generalize hx : (s.letters it).x + (s.letters it).v = x
  rw [offScreen_eq (by omega) (by omega), done_bind]
  by_cases hout : x < 0 ∨ x + 517734 > 13107200
  · rw [decide_eq_true hout, if_pos rfl]
    rcases countOut_cases x { s with letters := Function.update s.letters it { s.letters it with x } }
      h.hit_nonneg h.miss_nonneg with ⟨hit, miss, hrun, hsum, hhit, hmiss⟩ | ⟨hrun, hfull⟩
    · rw [hrun, done_bind]
      refine .inl ⟨_, pre, rfl, h.inUse.remove, fun i hi => ?_, ?_, hhit, hmiss⟩
      · have hne : i ≠ it := by
          rintro rfl
          exact hitl hi
        dsimp only
        rw [Function.update_of_ne hne]
        refine h.onScreen i ?_
        rw [List.mem_append] at hi ⊢
        exact hi.imp_right (List.mem_cons_of_mem _)
      · dsimp only at hsum ⊢
        omega
    · rw [hrun, fault_bind]
      dsimp only at hfull
      exact .inr ⟨rfl, by omega⟩
  · rw [decide_eq_false hout]
    refine .inl ⟨_, pre ++ [it], rfl, ?_⟩
    have hsame : pre ++ [it] ++ post = pre ++ it :: post := by simp
    rw [hsame]
    refine ⟨h.inUse, fun i hi => ?_, h.count, h.hit_nonneg, h.miss_nonneg⟩
    dsimp only
    by_cases hi' : i = it
    · have hold := h.onScreen it (by simp)
      subst hi'
      rw [Function.update_self]
      exact ⟨by dsimp only; omega, by dsimp only; omega, hold.text_nonneg, hold.text_lt, hold.v_ge, hold.v_lt⟩
    · rw [Function.update_of_ne hi']
      exact h.onScreen i hi

/-- The letters that are left to move. -/
theorem moveLetters_cases {n : ℕ} (hn : post.length ≤ n) (h : Good k s (pre ++ post)) :
    (∃ s' l, moveLetters n post.head? s = .ok s' ∧ Good k s' l) ∨
      (moveLetters n post.head? s = .error (.arith .overflow) ∧ 2 ^ 31 ≤ (k : ℤ)) := by
  induction post generalizing n s pre with
  | nil =>
    refine .inl ⟨s, pre ++ [], ?_, h⟩
    cases n <;> rfl
  | cons it post ih =>
    obtain ⟨n, rfl⟩ : ∃ m, n = m + 1 := ⟨n - 1, by rw [List.length_cons] at hn; omega⟩
    have hnext : s.pool.next it = post.head? := h.inUse.list.links.1
    change (∃ s' l, (moveLetter it (s.pool.next it) s >>= moveLetters n (s.pool.next it)) = .ok s' ∧ _) ∨
      ((moveLetter it (s.pool.next it) s >>= moveLetters n (s.pool.next it)) = _ ∧ _)
    rcases moveLetter_cases h with ⟨s', pre', hrun, h'⟩ | ⟨hrun, hfull⟩
    · rw [hrun, done_bind, hnext]
      exact ih (Nat.le_of_succ_le_succ hn) h'
    · rw [hrun, fault_bind]
      exact .inr ⟨rfl, hfull⟩

/-- **All letters move.** -/
theorem updateLetterPos_cases (h : Good k s l) :
    (∃ s' l', updateLetterPos s = .ok s' ∧ Good k s' l') ∨
      (updateLetterPos s = .error (.arith .overflow) ∧ 2 ^ 31 ≤ (k : ℤ)) := by
  have h' : Good k s ([] ++ l) := h
  unfold updateLetterPos
  rw [h.inUse.list.head_eq]
  exact moveLetters_cases h.length_le h'

/-- A letter whose key was found. -/
def Letter.turned (l : Letter) : Letter := { l with v := -196608 }

/-- The key of a letter. -/
def Letter.key (l : Letter) : Fin 26 := Fin.ofNat 26 l.text.toNat

/-- The letter falls, and its key is down. -/
def Wanted (s : Game) (i : Fly) : Prop := 0 < (s.letters i).v ∧ s.letterPressed (s.letters i).key = true

theorem key_eq {l : Letter} (h : l.OnScreen) : l.key = ⟨l.text.toNat, by have := h.text_lt; omega⟩ := by
  have := h.text_lt
  apply Fin.ext
  exact Nat.mod_eq_of_lt (by omega)

theorem queryKey_eq {l : Letter} (h : l.OnScreen) (pressed : Fin 26 → Bool) :
    queryKey l.text pressed = .ok (pressed l.key) := by
  rw [queryKey, dif_pos ⟨h.text_nonneg, h.text_lt⟩, key_eq h]

theorem releaseKey_eq {l : Letter} (h : l.OnScreen) (pressed : Fin 26 → Bool) :
    releaseKey l.text pressed = .ok (Function.update pressed l.key false) := by
  rw [releaseKey, dif_pos ⟨h.text_nonneg, h.text_lt⟩, key_eq h]

theorem better_eq {it : Fly} (h : (s.letters it).OnScreen) (min : ℤ) : ∃ b, better s it min = .ok b ∧
    (b = true ↔ Wanted s it ∧ min < (s.letters it).x) := by
  unfold better Wanted
  by_cases hmin : (s.letters it).v > 0 ∧ (s.letters it).x > min
  · rw [if_pos hmin, queryKey_eq h]
    exact ⟨_, rfl, fun hp => ⟨⟨hmin.1, hp⟩, hmin.2⟩, fun hw => hw.1.2⟩
  · rw [if_neg hmin]
    exact ⟨false, rfl, fun hf => absurd hf Bool.false_ne_true, fun hw => absurd ⟨hw.1.1, hw.2⟩ hmin⟩

/-- **The search** goes on with what it has, or finds the lowest of what is left. -/
theorem findTarget_cases {n : ℕ} (hn : post.length ≤ n) (h : Good k s (pre ++ post)) (min : ℤ) (target : Option Fly) :
    ∃ r, findTarget s n post.head? min target = .ok r ∧
      (r = target ∧ (∀ i ∈ post, Wanted s i → (s.letters i).x ≤ min) ∨
        ∃ t ∈ post, r = some t ∧ Wanted s t ∧ min < (s.letters t).x ∧
          ∀ i ∈ post, Wanted s i → (s.letters i).x ≤ (s.letters t).x) := by
  induction post generalizing n pre min target with
  | nil =>
    refine ⟨target, ?_, .inl ⟨rfl, fun i hi => absurd hi List.not_mem_nil⟩⟩
    cases n <;> rfl
  | cons it post ih =>
    obtain ⟨n, rfl⟩ : ∃ m, n = m + 1 := ⟨n - 1, by rw [List.length_cons] at hn; omega⟩
    have hnext : s.pool.next it = post.head? := h.inUse.list.links.1
    have hit : (s.letters it).OnScreen := h.onScreen it (by simp)
    have hsame : pre ++ it :: post = pre ++ [it] ++ post := by simp
    obtain ⟨b, hb, hbetter⟩ := better_eq hit min
    rw [List.head?_cons, findTarget, if_pos ⟨hit.text_nonneg, hit.text_lt⟩, hb, done_bind, hnext]
    rw [hsame] at h
    have hn' := Nat.le_of_succ_le_succ hn
    simp only [List.mem_cons, exists_eq_or_imp, forall_eq_or_imp]
    cases b with
    | false =>
      obtain ⟨r, hr, ⟨rfl, hnone⟩ | ⟨t, ht, rfl, hw, hlt, hall⟩⟩ := ih hn' h min target
      · refine ⟨r, hr, .inl ⟨rfl, fun hw => ?_, hnone⟩⟩
        exact Int.not_lt.mp fun hlt => Bool.false_ne_true (hbetter.mpr ⟨hw, hlt⟩)
      · refine ⟨_, hr, .inr (.inr ⟨t, ht, rfl, hw, hlt, fun hw' => ?_, hall⟩)⟩
        have hle : (s.letters it).x ≤ min :=
          Int.not_lt.mp fun hlt => Bool.false_ne_true (hbetter.mpr ⟨hw', hlt⟩)
        omega
    | true =>
      obtain ⟨hwit, hltit⟩ := hbetter.mp rfl
      obtain ⟨r, hr, ⟨rfl, hnone⟩ | ⟨t, ht, rfl, hw, hlt, hall⟩⟩ := ih hn' h (s.letters it).x (some it)
      · exact ⟨_, hr, .inr (.inl ⟨rfl, hwit, hltit, fun _ => le_refl _, hnone⟩)⟩
      · exact ⟨_, hr, .inr (.inr ⟨t, ht, rfl, hw, by omega, fun _ => by omega, hall⟩)⟩

/-- **One call**: the lowest falling letter whose key is down turns round, or there is none. -/
theorem updateKeypress_cases (h : Good k s l) :
    (updateKeypress s = .ok (false, s) ∧ ∀ i ∈ l, ¬Wanted s i) ∨
      ∃ t ∈ l, Wanted s t ∧ (∀ i ∈ l, Wanted s i → (s.letters i).x ≤ (s.letters t).x) ∧
        updateKeypress s = .ok (true, { s with
          letters := Function.update s.letters t (s.letters t).turned
          letterPressed := Function.update s.letterPressed (s.letters t).key false }) := by
  have h' : Good k s ([] ++ l) := h
  have hmin : num (int2F 100) = .ok 6553600 := by decide
  have hthree : num (int2F 3) = .ok 196608 := by decide
  obtain ⟨r, hfind, hcases⟩ := findTarget_cases h.length_le h' (-6553600) none
  unfold updateKeypress
  rw [← h.inUse.list.head_eq] at hfind
  rw [hmin, done_bind, num_int (by decide), done_bind, hfind, done_bind]
  rcases hcases with ⟨rfl, hnone⟩ | ⟨t, ht, rfl, hw, -, hall⟩
  · refine .inl ⟨rfl, fun i hi hw => ?_⟩
    have hx := (h.onScreen i hi).x_nonneg
    have hle := hnone i hi hw
    omega
  · refine .inr ⟨t, ht, hw, hall, ?_⟩
    dsimp only
    rw [releaseKey_eq (h.onScreen t ht), done_bind, hthree, done_bind, num_int (by decide), done_bind]
    rfl

/-- **A key is looked for.** A letter that is hit turns round. -/
theorem updateKeypress_ok (h : Good k s l) : ∃ b s', updateKeypress s = .ok (b, s') ∧ Good k s' l := by
  rcases updateKeypress_cases h with ⟨hrun, -⟩ | ⟨t, ht, -, -, hrun⟩
  · exact ⟨false, s, hrun, h⟩
  · have hon := h.onScreen t ht
    refine ⟨true, _, hrun, h.inUse, fun i hi => ?_, h.count, h.hit_nonneg, h.miss_nonneg⟩
    dsimp only
    by_cases hit : i = t
    · subst hit
      rw [Function.update_self]
      exact ⟨hon.x_nonneg, hon.x_le, hon.text_nonneg, hon.text_lt, le_refl _, show (-196608 : ℤ) < 65536 by decide⟩
    · rw [Function.update_of_ne hit]
      exact h.onScreen i hi

/-- **A call** that is allowed keeps everything; only a counter can overflow. -/
theorem call_cases {c : Call} (h : Good k s l) (hc : Allowed s c) :
    (∃ s' l', c.run s = .ok s' ∧ Good (k + c.created) s' l') ∨
      (c.run s = .error (.arith .overflow) ∧ 2 ^ 31 ≤ (k : ℤ)) := by
  cases c with
  | create ry rv rt =>
    obtain ⟨s', n, hrun, h'⟩ := createNewLetter_ok h hc ry rv rt
    exact .inl ⟨s', _, hrun, h'⟩
  | update => exact updateLetterPos_cases h
  | keypress =>
    obtain ⟨b, s', hrun, h'⟩ := updateKeypress_ok h
    refine .inl ⟨s', l, ?_, h'⟩
    rw [Call.run, hrun]
    rfl
  | key scanCode => exact .inl ⟨_, l, rfl, h.inUse, h.onScreen, h.count, h.hit_nonneg, h.miss_nonneg⟩

end Calls

/-- **The run.** -/
theorem Reached.good {k : ℕ} {s : Game} (h : Reached k s) : ∃ l, Good k s l := by
  induction h with
  | start => exact ⟨[], init_good⟩
  | call _ hc hrun ih =>
    obtain ⟨l, hgood⟩ := ih
    rcases call_cases hgood hc with ⟨s', l', hrun', h'⟩ | ⟨hrun', -⟩
    · obtain rfl := Except.ok.inj (hrun'.symm.trans hrun)
      exact ⟨l', h'⟩
    · exact nomatch hrun'.symm.trans hrun

/-- Calls that are played are a run. -/
theorem Reached.replay {cs : List Call} {k : ℕ} {s s' : Game} (h : Reached k s) (hs : replay cs s = .ok s') :
    Reached (k + (cs.map Call.created).sum) s' := by
  induction cs generalizing k s with
  | nil => exact Except.ok.inj hs ▸ h
  | cons c cs ih =>
    rw [Typing.replay] at hs
    split_ifs at hs with hc
    cases hrun : c.run s with
    | error e => simp [hrun] at hs
    | ok t =>
      rw [hrun, done_bind] at hs
      rw [List.map_cons, List.sum_cons, ← Nat.add_assoc]
      exact ih (h.call hc hrun) hs

/-! ### One letter after the other -/

section Shoot

variable {k : ℕ} {s : Game}

/-- With no letter live, one is created, and its key is pressed. -/
theorem create_press (h : Reached k s) (hhead : s.head = none) : ∃ s' n v, Reached (k + 1) s' ∧
    s'.head = some n ∧ s'.pool.next n = none ∧ s'.letters n = ⟨0, 8, 0, v⟩ ∧ 0 < v ∧
    s'.letterPressed 0 = true ∧ s'.hit = s.hit := by
  obtain ⟨l, hgood⟩ := h.good
  have hin := hgood.inUse
  rw [hhead] at hin
  have hroom : s.pool.live.card < 1000 := by
    rw [hin.card, (List.head?_eq_none_iff.mp hin.list.head_eq.symm)]
    decide
  obtain ⟨-, n, pool, hnew, hin'⟩ := hin.first hroom
  obtain ⟨v, hv, hlo, -⟩ := newSpeed_ok 0
  have hnewHead : newHead s = .ok (n, pool) := by
    rw [newHead, hhead]
    dsimp only
    rw [hnew]
    rfl
  have hcreate : createNewLetter 0 0 0 s = .ok { s with
      pool, letters := Function.update s.letters n ⟨0, 8, 0, v⟩, head := some n,
      letterPressed := Function.update s.letterPressed 0 false } := by
    rw [createNewLetter, hnewHead, done_bind]
    dsimp only
    rw [hv, done_bind]
    rfl
  have hcreated : Reached (k + 1) _ := .call (c := .create 0 0 0) h hroom hcreate
  have hpressed : Reached (k + 1) _ := .call (c := .key 30) hcreated trivial rfl
  exact ⟨_, n, v, hpressed, rfl, hin'.list.seg.2, Function.update_self .., by omega, rfl, rfl⟩

/-- A single letter whose key is down turns round. -/
theorem keypress_single {n : Fly} {v : ℤ} (hhead : s.head = some n) (hnext : s.pool.next n = none)
    (hletter : s.letters n = ⟨0, 8, 0, v⟩) (hv : 0 < v) (hkey : s.letterPressed 0 = true) :
    Call.keypress.run s = .ok { s with
      letters := Function.update s.letters n ⟨0, 8, 0, -196608⟩,
      letterPressed := Function.update s.letterPressed 0 false } := by
  have hbetter : better s n (-6553600) = .ok true := by
    have habove : (0 : ℤ) > -6553600 := by decide
    rw [better, hletter, if_pos ⟨hv, habove⟩, ← hkey]
    rfl
  have hfind : findTarget s rounds (some n) (-6553600) none = .ok (some n) := by
    have hrounds : rounds = 1000 + 1 := rfl
    rw [hrounds, findTarget, hletter, hbetter, hnext]
    rfl
  have hmin : num (int2F 100) = .ok 6553600 := by decide
  have hthree : num (int2F 3) = .ok 196608 := by decide
  rw [Call.run, updateKeypress, hmin, done_bind, num_int (by decide), done_bind, hhead, hfind, done_bind]
  dsimp only
  rw [hletter, hthree]
  rfl

/-- With no letter live, one is created, its key is pressed, and it is looked for:
the next step takes it off the screen. -/
theorem shoot (h : Reached k s) (hhead : s.head = none) : ∃ s' n, Reached (k + 1) s' ∧ s'.head = some n ∧
    s'.pool.next n = none ∧ s'.letters n = ⟨0, 8, 0, -196608⟩ ∧ s'.hit = s.hit := by
  obtain ⟨s₁, n, v, hreached, hhead₁, hnext, hletter, hv, hkey, hhit⟩ := create_press h hhead
  have hrun := keypress_single hhead₁ hnext hletter hv hkey
  have hturned : Reached (k + 1) _ := .call (c := .keypress) hreached trivial hrun
  exact ⟨_, n, hturned, hhead₁, hnext, Function.update_self .., hhit⟩

/-- A single letter that leaves the screen at the top is hit. -/
theorem update_single {n : Fly} (hhead : s.head = some n) (hnext : s.pool.next n = none)
    (hletter : s.letters n = ⟨0, 8, 0, -196608⟩) :
    (IsInt (s.hit + 1) → ∃ s', updateLetterPos s = .ok s' ∧ s'.head = none ∧ s'.hit = s.hit + 1) ∧
      (¬IsInt (s.hit + 1) → updateLetterPos s = .error (.arith .overflow)) := by
  have hrounds : rounds = 1000 + 1 := rfl
  have hoff : offScreen (-196608) = .ok true := rfl
  have hmove : updateLetterPos s = (moveLetter n none s >>= moveLetters 1000 none) := by
    rw [updateLetterPos, hrounds, hhead, moveLetters, hnext]
  rw [hmove, moveLetter]
  dsimp only
  rw [hletter, zero_add, num_int (by decide), done_bind, hoff, done_bind, if_pos rfl]
  dsimp only
  constructor
  · intro hint
    rw [countOut_hit]
    · refine ⟨_, rfl, ?_, rfl⟩
      dsimp only
      rw [hhead, if_pos rfl]
    · decide
    · exact hint
  · intro hint
    rw [countOut_full]
    · rfl
    · decide
    · exact hint

/-- Any number of letters that `hit` can count are hit, one after the other. -/
theorem reached_hits (n : ℕ) (hn : n < 2 ^ 31) : ∃ s, Reached n s ∧ s.head = none ∧ s.hit = n := by
  induction n with
  | zero => exact ⟨init, .start, rfl, rfl⟩
  | succ n ih =>
    obtain ⟨s, hreached, hhead, hhit⟩ := ih (by omega)
    obtain ⟨s₁, i, hreached₁, hhead₁, hnext, hletter, hhit₁⟩ := shoot hreached hhead
    have hint : IsInt (s₁.hit + 1) := by
      unfold IsInt
      omega
    obtain ⟨s₂, hrun, hhead₂, hhit₂⟩ := (update_single hhead₁ hnext hletter).1 hint
    refine ⟨s₂, .call (c := .update) hreached₁ trivial hrun, hhead₂, ?_⟩
    push_cast
    omega

end Shoot

/-! ### The run -/

/-- What is to hold of the list, the pool and the counters after `k` letters have been created. -/
structure Intact (k : ℕ) (s : Game) : Prop where
  list : ∃ l, DList s.pool.next s.pool.prev s.head l ∧ ∀ n, n ∈ l ↔ n ∈ s.pool.live
  fresh : ∀ n pool, s.pool.new = some (n, pool) → n ∉ s.pool.live ∧ n ≠ Fin.last 1000
  partition : s.pool.freeHead ≠ none → ∃ f, Seg s.pool.next s.pool.freeHead f none ∧ f.Nodup ∧
    ∀ n, n ∈ f ↔ n ∉ s.pool.live
  count : (k : ℤ) = s.pool.live.card + s.hit + s.miss

/-- **The falling letters.** The list, the pool and the counters are as they should be
in every run, and every call succeeds until 2^31 letters have been created. -/
theorem reached_letters {k : ℕ} {s : Game} (h : Reached k s) :
    Intact k s ∧ (k < 2 ^ 31 → ∀ c, Allowed s c → ∃ s', c.run s = .ok s') := by
  obtain ⟨l, hgood⟩ := h.good
  have hin := hgood.inUse
  refine ⟨⟨⟨l, hin.list, hin.mem_iff⟩, fun n pool hnew => hin.pool.new_fresh hnew, fun hready => ?_, ?_⟩,
    fun hk c hc => ?_⟩
  · rcases hin.pool with hinit | ⟨f, hf⟩
    · exact (hready (hinit ▸ rfl)).elim
    · exact ⟨_, hf.seg, hf.nodup, hf.mem_iff⟩
  · rw [hin.card]
    exact hgood.count
  · rcases call_cases hgood hc with ⟨s', l', hrun, -⟩ | ⟨-, hfull⟩
    · exact ⟨s', hrun⟩
    · exact absurd hfull (by omega)

/-- Three letters fall, the second faster; it leaves at the bottom, and one of the others is hit. -/
def threeLetters : List Call :=
  [.create 0 0 0, .create 0 999 1, .create 0 0 0] ++ List.replicate 193 .update ++ [.key 30, .keypress] ++
    List.replicate 33 .update

/-- The game after these calls. -/
def afterCalls (cs : List Call) : Game :=
  match replay cs init with
  | .ok s => s
  | .error _ => init

theorem threeLetters_intact : (afterCalls threeLetters).hit = 1 ∧ (afterCalls threeLetters).miss = 1 ∧
    Intact 3 (afterCalls threeLetters) ∧ ∃ s', Call.update.run (afterCalls threeLetters) = .ok s' := by
  have hok : (replay threeLetters init).isOk = true := by decide +kernel
  have hreached : Reached 3 (afterCalls threeLetters) := by
    unfold afterCalls
    cases hs : replay threeLetters init with
    | error e =>
      rw [hs] at hok
      exact nomatch hok
    | ok s =>
      have hrun := Reached.start.replay hs
      rwa [show (threeLetters.map Call.created).sum = 3 by decide +kernel, Nat.zero_add] at hrun
  exact ⟨by decide +kernel, by decide +kernel, (reached_letters hreached).1,
    (reached_letters hreached).2 (by decide) .update trivial⟩

/-- When 2^31 letters are hit, one after the other, the last hit is one too many for `hit`. -/
theorem hit_overflows : ¬∀ k s, Reached k s → Intact k s ∧ ∀ c, Allowed s c → ∃ s', c.run s = .ok s' := by
  intro hall
  obtain ⟨s, hreached, hhead, hhit⟩ := reached_hits (2 ^ 31 - 1) (by decide)
  obtain ⟨s₁, i, hreached₁, hhead₁, hnext, hletter, hhit₁⟩ := shoot hreached hhead
  have hint : ¬IsInt (s₁.hit + 1) := by
    rw [hhit₁, hhit]
    decide
  obtain ⟨s₂, hrun⟩ := (hall _ s₁ hreached₁).2 .update trivial
  exact nomatch ((update_single hhead₁ hnext hletter).2 hint).symm.trans hrun

end Typing

end Nemu
