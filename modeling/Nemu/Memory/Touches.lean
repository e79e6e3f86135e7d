/-
# The elements of the caches that are touched

`cache.c` again, with the elements of `L1` and `L2` that it touches, in order
and up to a failed assertion. Apart from them these are the accesses of
`Cache`. When L2 replaces a dirty line it touches `L1[group].cache[x]` with the
group and the way of `L2`: all other elements exist, and these do if and only if
the group and the way are in the range of `L1`.

Key definitions: `Touch`, `Touch.Inside`, `Touches.call`, `CallsInside`.
Key theorems: `result_call`, `all_call`, `calls_inside_iff`.
-/
import Nemu.Lib.Traced
import Nemu.Memory.Directory

namespace Nemu

open Bytes SetAssoc

/-- An element of the arrays `L1[group].cache[way]` and `L2[group].cache[way]`. -/
inductive Touch where
  | l1 (group way : ℕ)
  | l2 (group way : ℕ)

/-- The element exists. -/
def Touch.Inside : Touch → Prop
  | l1 g x => g < 128 ∧ x < 8
  | l2 g x => g < 4096 ∧ x < 16

namespace Touches

open Traced

/-! ### The accesses -/

abbrev Touching (α : Type) := Traced Touch Hier α

/-- The loop over the ways of L1 that looks for the line of `a`. -/
def hit1 (a : Word) : Touching (Option ℕ) :=
  search (.l1 (group1 a)) (fun x s => (s.l1 (group1 a) x).valid && (s.l1 (group1 a) x).tag == tag1 a)
    (List.range 8)

def hit2 (a : Word) : Touching (Option ℕ) :=
  search (.l2 (group2 a)) (fun x s => (s.l2 (group2 a) x).valid && (s.l2 (group2 a) x).tag == tag2 a)
    (List.range 16)

/-- `rand() % n`. -/
def rand (n : ℕ) : Touching ℕ := access fun s => some (s.drawRand.1 % n, s.drawRand.2)

/-- The loop that looks for an invalid way of L1, and else `rand()`. -/
def victim1 (g : ℕ) : Touching ℕ := do
  let x ← search (.l1 g) (fun x s => !(s.l1 g x).valid) (List.range 8)
  match x with
  | some x => pure x
  | none => rand 8

def victim2 (g : ℕ) : Touching ℕ := do
  let x ← search (.l2 g) (fun x s => !(s.l2 g x).valid) (List.range 16)
  match x with
  | some x => pure x
  | none => rand 16

section Accesses

variable (junk : ℕ → Byte) (oob : ℕ → ℕ → Byte)

/-- The write-back: `L1[group].cache[x].data[i]` with the group and the way of L2. -/
def writeBack2 (block : Word) (g x : ℕ) : ℕ → Touching Unit :=
  upto fun n => do
    emit (.l1 g x)
    access fun s =>
      (dramWrite junk s.dram (block + BitVec.ofNat 32 n) 1 ((l1Raw oob s g x n).setWidth 32)).map fun d =>
        ((), { s with dram := d })

/-- A dirty victim is written back. -/
def evict2 (a : Word) (x : ℕ) : Touching Unit := do
  emit (.l2 (group2 a) x)
  let dirty ← read fun s => (s.l2 (group2 a) x).dirty
  if dirty then writeBack2 junk oob (blockOf a) (group2 a) x 64 else pure ()

def fill2 (block : Word) (g x : ℕ) : ℕ → Touching Unit :=
  upto fun n => do
    let v ← access fun s => (dramRead junk s.dram (block + BitVec.ofNat 32 n) 1).map fun r =>
      (r.1, { s with dram := r.2 })
    emit (.l2 g x)
    write fun s => s.setL2 g x
      { s.l2 g x with data := fun i => if i = n then byte (v &&& low 1) 0 else (s.l2 g x).data i }

/-- The miss branch of `Cache_2_read` and `Cache_2_write`. -/
def alloc2 (a : Word) : Touching ℕ := do
  let x ← victim2 (group2 a)
  evict2 junk oob a x
  emit (.l2 (group2 a) x)
  write fun s => s.setL2 (group2 a) x { s.l2 (group2 a) x with valid := true, tag := tag2 a, dirty := false }
  fill2 junk (blockOf a) (group2 a) x 64
  return x

def line2 (a : Word) : Touching ℕ := do
  let x ← hit2 a
  match x with
  | some x => pure x
  | none => alloc2 junk oob a

/-- `Cache_2_read`. -/
def cache2Read (a : Word) (len : ℕ) : Touching Word := do
  let x ← line2 junk oob a
  emit (.l2 (group2 a) x)
  let temp ← read fun s i => if i < 64 then (s.l2 (group2 a) x).data i else junk i
  if offsetOf a + len > 64 then
    let next := blockOf a + 64
    let y ← line2 junk oob next
    emit (.l2 (group2 next) y)
    let temp ← read fun s i => if 64 ≤ i ∧ i < 68 then (s.l2 (group2 next) y).data (i - 64) else temp i
    return word (fun i => temp (offsetOf a + i)) 4
  else return word (fun i => temp (offsetOf a + i)) 4

/-- `Cache_2_write` inside one line. -/
def cache2WriteLine (a : Word) (len : ℕ) (data : Word) : Touching Unit := do
  let x ← hit2 a
  match x with
  | some x =>
    emit (.l2 (group2 a) x)
    write fun s => s.setL2 (group2 a) x { s.l2 (group2 a) x with
      dirty := true
      data := fun i =>
        if offsetOf a ≤ i ∧ i < offsetOf a + len then byte data (i - offsetOf a)
        else (s.l2 (group2 a) x).data i }
  | none =>
    access fun s => (dramWrite junk s.dram a len data).map fun d => ((), { s with dram := d })
    let _ ← alloc2 junk oob a
    return ()

/-- `Cache_2_write`. -/
def cache2Write (a : Word) (len : ℕ) (data : Word) : Touching Unit :=
  if offsetOf a + len - 1 > 0x3f then do
    let front := 0x3f - offsetOf a + 1
    cache2WriteLine junk oob a front (data &&& (1#32 <<< (front * 8) - 1))
    cache2WriteLine junk oob (a + BitVec.ofNat 32 front) (len - front) (data >>> (8 * front))
  else cache2WriteLine junk oob a len data

/-- A round of the loop that fills a line of L1. -/
def fillByte1 (block : Word) (g x n : ℕ) : Touching Unit := do
  let v ← cache2Read junk oob (block + BitVec.ofNat 32 n) 1
  emit (.l1 g x)
  write fun s => s.setL1 g x
    { s.l1 g x with data := fun i => if i = n then byte (v &&& low 1) 0 else (s.l1 g x).data i }

def fill1 (block : Word) (g x : ℕ) : ℕ → Touching Unit := upto (fillByte1 junk oob block g x)

/-- The miss branch of `Cache_1_read`. -/
def alloc1 (a : Word) : Touching ℕ := do
  let x ← victim1 (group1 a)
  emit (.l1 (group1 a) x)
  write fun s => s.setL1 (group1 a) x { s.l1 (group1 a) x with valid := true, tag := tag1 a }
  fill1 junk oob (blockOf a) (group1 a) x 64
  return x

def line1 (a : Word) : Touching ℕ := do
  let x ← hit1 a
  match x with
  | some x => pure x
  | none => alloc1 junk oob a

/-- `Cache_1_read`. -/
def cache1Read (a : Word) (len : ℕ) : Touching Word := do
  let x ← line1 junk oob a
  emit (.l1 (group1 a) x)
  let temp ← read fun s i => if i < 64 then (s.l1 (group1 a) x).data i else junk i
  if offsetOf a + len > 64 then
    let next := blockOf a + 64
    let y ← line1 junk oob next
    emit (.l1 (group1 next) y)
    let temp ← read fun s i => if 64 ≤ i ∧ i < 68 then (s.l1 (group1 next) y).data (i - 64) else temp i
    return word (fun i => temp (offsetOf a + i)) 4
  else return word (fun i => temp (offsetOf a + i)) 4

/-- `Cache_1_write` inside one line. -/
def cache1WriteLine (a : Word) (len : ℕ) (data : Word) : Touching Unit := do
  let x ← hit1 a
  cache2Write junk oob a len data
  match x with
  | some x => fill1 junk oob (blockOf a) (group1 a) x 64
  | none => pure ()

/-- `Cache_1_write`. -/
def cache1Write (a : Word) (len : ℕ) (data : Word) : Touching Unit :=
  if offsetOf a + len - 1 > 0x3f then do
    let front := 0x3f - offsetOf a + 1
    cache1WriteLine junk oob a front (data &&& (1#32 <<< (front * 8) - 1))
    cache1WriteLine junk oob (a + BitVec.ofNat 32 front) (len - front) (data >>> (8 * front))
  else cache1WriteLine junk oob a len data

/-- A call of `Cache_1_read` or `Cache_1_write`. -/
def call : MemOp → Touching Unit
  | .read a len => do
    let _ ← cache1Read junk oob a len
    return ()
  | .write a len data => cache1Write junk oob a len data

def calls : List MemOp → Touching Unit
  | [] => pure ()
  | op :: ops => do
    call junk oob op
    calls ops

end Accesses

/-! ### The same accesses -/

section Result

variable {junk : ℕ → Byte} {oob : ℕ → ℕ → Byte} {s : Hier} {a : Word} {g x n len : ℕ} {data : Word}

theorem result_hit1 : result (hit1 a) s = some (s.hit1 a, s) := result_search ..

theorem result_hit2 : result (hit2 a) s = some (s.hit2 a, s) := result_search ..

theorem result_victim1 : result (victim1 g) s = some ((s.victim1 g).1, (s.victim1 g).2) := by
  unfold victim1 Hier.victim1
  rw [result_bind, result_search, Option.bind_some]
  cases (List.range 8).find? fun x => !(s.l1 g x).valid <;> rfl

theorem result_victim2 : result (victim2 g) s = some ((s.victim2 g).1, (s.victim2 g).2) := by
  unfold victim2 Hier.victim2
  rw [result_bind, result_search, Option.bind_some]
  cases (List.range 16).find? fun x => !(s.l2 g x).valid <;> rfl

theorem result_writeBack2 (block : Word) :
    result (writeBack2 junk oob block g x n) s = (Nemu.writeBack2 junk oob s block g x n).map ((), ·) := by
  induction n with
  | zero => rfl
  | succ n ih =>
    unfold writeBack2 at ih ⊢
    simp only [upto, result_bind, ih, Nemu.writeBack2]
    cases Nemu.writeBack2 junk oob s block g x n with
    | none => rfl
    | some t =>
      simp only [Option.map_some, Option.bind_some, Option.bind_eq_bind, result_emit, result_access]
      cases dramWrite junk t.dram (block + BitVec.ofNat 32 n) 1 ((l1Raw oob t g x n).setWidth 32) <;> rfl

theorem result_fill2 (block : Word) :
    result (fill2 junk block g x n) s = (Nemu.fill2 junk s block g x n).map ((), ·) := by
  induction n with
  | zero => rfl
  | succ n ih =>
    unfold fill2 at ih ⊢
    simp only [upto, result_bind, ih, Nemu.fill2]
    cases Nemu.fill2 junk s block g x n with
    | none => rfl
    | some t =>
      simp only [Option.map_some, Option.bind_some, Option.bind_eq_bind, result_access]
      cases dramRead junk t.dram (block + BitVec.ofNat 32 n) 1 <;> rfl

theorem result_evict2 : result (evict2 junk oob a x) s =
    (if (s.l2 (group2 a) x).dirty then Nemu.writeBack2 junk oob s (blockOf a) (group2 a) x 64
      else some s).map ((), ·) := by
  unfold evict2
  simp only [result_bind, result_emit, result_read, Option.bind_some]
  cases (s.l2 (group2 a) x).dirty with
  | true => exact result_writeBack2 _
  | false => rfl

theorem result_alloc2 : result (alloc2 junk oob a) s = Nemu.alloc2 junk oob s a := by
  rw [alloc2_eq]
  unfold alloc2
  simp only [result_bind, result_victim2, result_evict2, result_fill2, result_emit, result_write, result_pure,
    Option.bind_some, Option.bind_map]
  rfl

theorem result_line2 : result (line2 junk oob a) s = Nemu.line2 junk oob s a := by
  unfold line2 Nemu.line2
  rw [result_bind, result_hit2, Option.bind_some]
  cases s.hit2 a with
  | some x => rfl
  | none => exact result_alloc2

theorem result_cache2Read : result (cache2Read junk oob a len) s = Nemu.cache2Read junk oob s a len := by
  unfold cache2Read Nemu.cache2Read
  simp only [result_bind, result_line2, Option.bind_eq_bind]
  congr 1
  funext ⟨x, t⟩
  simp only [result_emit, result_read, Option.bind_some]
  split
  · simp only [result_bind, result_line2]
    rfl
  · rfl

theorem result_cache2WriteLine :
    result (cache2WriteLine junk oob a len data) s =
      (Nemu.cache2WriteLine junk oob s a len data).map ((), ·) := by
  unfold cache2WriteLine Nemu.cache2WriteLine
  rw [result_bind, result_hit2, Option.bind_some]
  cases s.hit2 a with
  | some x => rfl
  | none =>
    simp only [result_bind, result_access, result_alloc2, Option.bind_eq_bind]
    cases dramWrite junk s.dram a len data with
    | none => rfl
    | some d =>
      simp only [Option.map_some, Option.bind_some]
      cases Nemu.alloc2 junk oob { s with dram := d } a <;> rfl

theorem result_cache2Write :
    result (cache2Write junk oob a len data) s = (Nemu.cache2Write junk oob s a len data).map ((), ·) := by
  unfold cache2Write Nemu.cache2Write
  split
  · simp only [result_bind, result_cache2WriteLine, Option.bind_eq_bind, Option.map_bind, Option.bind_map]
    rfl
  · exact result_cache2WriteLine

theorem result_fill1 (block : Word) :
    result (fill1 junk oob block g x n) s = (Nemu.fill1 junk oob s block g x n).map ((), ·) := by
  induction n with
  | zero => rfl
  | succ n ih =>
    unfold fill1 fillByte1 at ih ⊢
    simp only [upto, result_bind, ih, Nemu.fill1]
    cases Nemu.fill1 junk oob s block g x n with
    | none => rfl
    | some t =>
      simp only [Option.map_some, Option.bind_some, Option.bind_eq_bind, result_cache2Read]
      cases Nemu.cache2Read junk oob t (block + BitVec.ofNat 32 n) 1 <;> rfl

theorem result_alloc1 : result (alloc1 junk oob a) s =
    (Nemu.fill1 junk oob (s.claim1 a) (blockOf a) (group1 a) (s.victim1 (group1 a)).1 64).map
      ((s.victim1 (group1 a)).1, ·) := by
  have hl1 : (s.victim1 (group1 a)).2.l1 = s.l1 := by rw [Hier.victim1_snd]
  unfold alloc1 Hier.claim1
  simp only [result_bind, result_victim1, result_fill1, result_emit, result_write, result_pure,
    Option.bind_some, Option.bind_map, hl1]
  rw [Option.map_eq_bind]
  rfl

theorem result_line1 : result (line1 junk oob a) s = Nemu.line1 junk oob s a := by
  cases hh : s.hit1 a with
  | some x =>
    unfold line1 Nemu.line1
    rw [result_bind, result_hit1, Option.bind_some, hh]
    rfl
  | none =>
    unfold line1
    rw [line1_miss hh, result_bind, result_hit1, Option.bind_some, hh]
    dsimp only
    rw [result_alloc1, Option.map_eq_bind]
    rfl

theorem result_cache1Read : result (cache1Read junk oob a len) s = Nemu.cache1Read junk oob s a len := by
  unfold cache1Read Nemu.cache1Read
  simp only [result_bind, result_line1, Option.bind_eq_bind]
  congr 1
  funext ⟨x, t⟩
  simp only [result_emit, result_read, Option.bind_some]
  split
  · simp only [result_bind, result_line1]
    rfl
  · rfl

theorem result_cache1WriteLine :
    result (cache1WriteLine junk oob a len data) s =
      (Nemu.cache1WriteLine junk oob s a len data).map ((), ·) := by
  unfold cache1WriteLine Nemu.cache1WriteLine
  simp only [result_bind, result_hit1, result_cache2Write, Option.bind_some, Option.bind_eq_bind,
    Option.map_bind, Option.bind_map]
  congr 1
  funext t
  dsimp only [Function.comp_apply]
  cases s.hit1 a with
  | some x => exact result_fill1 _
  | none => rfl

theorem result_cache1Write :
    result (cache1Write junk oob a len data) s = (Nemu.cache1Write junk oob s a len data).map ((), ·) := by
  unfold cache1Write Nemu.cache1Write
  split
  · simp only [result_bind, result_cache1WriteLine, Option.bind_eq_bind, Option.map_bind, Option.bind_map]
    rfl
  · exact result_cache1WriteLine

/-- **The accesses are those of `Cache`.** -/
theorem result_call (op : MemOp) :
    result (call junk oob op) s = (cacheCall junk oob s op).map ((), ·) := by
  cases op with
  | read a len =>
    unfold call cacheCall
    dsimp only
    rw [result_bind, result_cache1Read]
    cases Nemu.cache1Read junk oob s a len <;> rfl
  | write a len data => exact result_cache1Write

end Result

end Touches

/-! ### The victims of L2 -/

namespace Dir

/-- The dirty line that L2 replaces for `a`, if any, has its group and its way in the range of L1. -/
def VictimInside (d : Dir) (a : Word) : Prop :=
  d.hit2 a = none → d.dirty (group2 a) (d.way2 (group2 a)) = true →
    group2 a < 128 ∧ d.way2 (group2 a) < 8

/-- The same, for a line that L1 is to serve. -/
def LineInside (d : Dir) (a : Word) : Prop := d.hit1 a = none → (d.drawn1 (group1 a)).VictimInside a

/-- The same, for a line that is to be written; DRAM is written before. -/
def WriteLineInside (d : Dir) (a : Word) : Prop := a.toNat < hwMemSize → d.VictimInside a

/-- After the draws that serving `a` in L2 makes. -/
def draw2 (d : Dir) (a : Word) : Dir := if (d.hit2 a).isSome then d else d.drawn2 (group2 a)

def draw1 (d : Dir) (a : Word) : Dir :=
  if (d.hit1 a).isSome then d else (d.drawn1 (group1 a)).draw2 a

/-- The line of `a` can be served in L2. -/
def Has2 (d : Dir) (a : Word) : Prop := (d.hit2 a).isSome = true ∨ a.toNat < hwMemSize

def Has1 (d : Dir) (a : Word) : Prop := (d.hit1 a).isSome = true ∨ d.Has2 a

/-- In both lines that a read touches. -/
def ReadInside (d : Dir) (a : Word) (len : ℕ) : Prop :=
  d.LineInside a ∧ (64 < offsetOf a + len → d.Has1 a → (d.draw1 a).LineInside (blockOf a + 64))

def WriteInside (d : Dir) (a : Word) (len : ℕ) : Prop :=
  d.WriteLineInside a ∧ (64 < offsetOf a + len → d.Has2 a → (d.draw2 a).WriteLineInside (blockOf a + 64))

/-- Two directories agree on the sets of `a` and on `rand()`. -/
structure SameAt (a : Word) (d d' : Dir) : Prop where
  l1 : d.l1 (group1 a) = d'.l1 (group1 a)
  l2 : d.l2 (group2 a) = d'.l2 (group2 a)
  dirty : d.dirty (group2 a) = d'.dirty (group2 a)
  rand : d.rand = d'.rand

variable {d d' : Dir} {a b : Word}

theorem rand_drawn1 (d : Dir) (g : ℕ) : (d.drawn1 g).rand =
    if (free ways1 d.l1 g).isSome then d.rand else fun n => d.rand (n + 1) := by
  unfold drawn1
  split_ifs <;> rfl

theorem rand_draw2 (d : Dir) (a : Word) : (d.draw2 a).rand =
    if (d.hit2 a).isSome then d.rand
    else if (free ways2 d.l2 (group2 a)).isSome then d.rand else fun n => d.rand (n + 1) := by
  unfold draw2 drawn2
  split_ifs <;> rfl

@[simp] theorem l1_draw2 (d : Dir) (a : Word) : (d.draw2 a).l1 = d.l1 := by
  unfold draw2
  split <;> simp

@[simp] theorem l2_draw2 (d : Dir) (a : Word) : (d.draw2 a).l2 = d.l2 := by
  unfold draw2
  split <;> simp

@[simp] theorem dirty_draw2 (d : Dir) (a : Word) : (d.draw2 a).dirty = d.dirty := by
  unfold draw2
  split <;> simp

/-- The condition is about a line. -/
theorem victimInside_line (h : b.toNat / 64 = a.toNat / 64) : d.VictimInside b ↔ d.VictimInside a := by
  have hg : group2 b = group2 a := by rw [group2, group2, h]
  have ht : tag2 b = tag2 a := by rw [tag2, tag2, h]
  rw [VictimInside, VictimInside, hit2, hit2, hg, ht]

theorem victimInside_of_hit (h : (d.hit2 a).isSome = true) : d.VictimInside a := by
  intro hm
  simp [hm] at h

namespace SameAt

theorem hit1 (h : SameAt a d d') : d.hit1 a = d'.hit1 a := by
  simp only [Dir.hit1, find, h.l1]

theorem hit2 (h : SameAt a d d') : d.hit2 a = d'.hit2 a := by
  simp only [Dir.hit2, find, h.l2]

theorem way2 (h : SameAt a d d') : d.way2 (group2 a) = d'.way2 (group2 a) := by
  simp only [Dir.way2, free, h.l2, h.rand]

theorem drawn1 (h : SameAt a d d') : SameAt a (d.drawn1 (group1 a)) (d'.drawn1 (group1 a)) := by
  have hfree : free ways1 d.l1 (group1 a) = free ways1 d'.l1 (group1 a) := by simp only [free, h.l1]
  constructor
  · simp [h.l1]
  · simp [h.l2]
  · simp [h.dirty]
  · rw [rand_drawn1, rand_drawn1, hfree, h.rand]

theorem victimInside (h : SameAt a d d') : d.VictimInside a ↔ d'.VictimInside a := by
  rw [VictimInside, VictimInside, h.hit2, h.way2, h.dirty]

theorem lineInside (h : SameAt a d d') : d.LineInside a ↔ d'.LineInside a := by
  rw [LineInside, LineInside, h.hit1, h.drawn1.victimInside]

end SameAt

/-- Serving a line in L2 changes its set only. -/
theorem sameAt_serve2 (h : d.serve2 a = some d') (hg : group2 b ≠ group2 a) : SameAt b d' (d.draw2 a) := by
  rcases serve2_cases h with ⟨hh, rfl⟩ | ⟨hm, -, rfl⟩
  · rw [draw2, if_pos hh]
    exact ⟨rfl, rfl, rfl, rfl⟩
  · rw [draw2, hm]
    constructor
    · rfl
    · simp [Dir.fill2, install, put_of_set_ne hg]
    · simp [Dir.fill2, put_of_set_ne hg]
    · rfl

theorem sameAt_writeLine (h : d.writeLine a = some d') (hg : group2 b ≠ group2 a) :
    SameAt b d' (d.draw2 a) := by
  cases hh : d.hit2 a with
  | some x =>
    rw [writeLine, hh] at h
    obtain rfl := Option.some.inj h
    rw [draw2, hh]
    constructor
    · rfl
    · rfl
    · simp [put_of_set_ne hg]
    · rfl
  | none =>
    rw [writeLine, hh] at h
    exact sameAt_serve2 h hg

/-- Serving a line in L1 changes its sets only. -/
theorem sameAt_serve1 (h : d.serve1 a = some d') (h1 : group1 b ≠ group1 a) (h2 : group2 b ≠ group2 a) :
    SameAt b d' (d.draw1 a) := by
  unfold serve1 at h
  split_ifs at h with hh
  · obtain rfl := Option.some.inj h
    rw [draw1, if_pos hh]
    exact ⟨rfl, rfl, rfl, rfl⟩
  · rw [draw1, if_neg hh]
    have hsame : SameAt b d' ((d.fill1 a).draw2 a) := sameAt_serve2 h h2
    have hrand : ((d.fill1 a).draw2 a).rand = ((d.drawn1 (group1 a)).draw2 a).rand := by
      rw [rand_draw2, rand_draw2]
      rfl
    constructor
    · rw [hsame.l1]
      simp [Dir.fill1, install, put_of_set_ne h1]
    · rw [hsame.l2]
      simp [Dir.fill1]
    · rw [hsame.dirty]
      simp [Dir.fill1]
    · rw [hsame.rand, hrand]

/-- Whether L1 serves a line. -/
theorem serve1_isSome : (d.serve1 a).isSome = true ↔ d.Has1 a := by
  unfold serve1 Has1 Has2
  by_cases h1 : (d.hit1 a).isSome = true
  · simp [h1]
  · have hh2 : (d.fill1 a).hit2 a = d.hit2 a := by
      simp [hit2, Dir.fill1]
    unfold serve2
    rw [if_neg h1, hh2]
    split_ifs with h2 ha
    · simp [h2]
    · simp [ha]
    · simp [h1, h2, ha]

/-- Whether a write inside a line returns. -/
theorem writeLine_isSome : (d.writeLine a).isSome = true ↔ d.Has2 a := by
  unfold writeLine Has2 serve2
  cases hh : d.hit2 a with
  | some x => simp
  | none => by_cases ha : a.toNat < hwMemSize <;> simp [ha]

/-- The condition on a call, in the directory before it. -/
def Inside (d : Dir) : MemOp → Prop
  | .read a len => d.ReadInside a len
  | .write a len _ => d.WriteInside a len

/-- What a call does to the directory. -/
def call (d : Dir) : MemOp → Option Dir
  | .read a len => d.read a len
  | .write a len _ => d.write a len

/-- Each call of a run meets the condition. -/
def RunInside (d : Dir) : List MemOp → Prop
  | [] => True
  | op :: ops => d.Inside op ∧ ∀ d' ∈ d.call op, d'.RunInside ops

section Decidable

variable (d : Dir) (a : Word) (len : ℕ)

instance : Decidable (d.VictimInside a) := inferInstanceAs (Decidable (_ → _))
instance : Decidable (d.LineInside a) := inferInstanceAs (Decidable (_ → _))
instance : Decidable (d.WriteLineInside a) := inferInstanceAs (Decidable (_ → _))
instance : Decidable (d.Has2 a) := inferInstanceAs (Decidable (_ ∨ _))
instance : Decidable (d.Has1 a) := inferInstanceAs (Decidable (_ ∨ _))
instance : Decidable (d.ReadInside a len) := inferInstanceAs (Decidable (_ ∧ _))
instance : Decidable (d.WriteInside a len) := inferInstanceAs (Decidable (_ ∧ _))

instance decidableInside : ∀ op, Decidable (d.Inside op)
  | .read a len => inferInstanceAs (Decidable (d.ReadInside a len))
  | .write a len _ => inferInstanceAs (Decidable (d.WriteInside a len))

instance decidableRunInside : ∀ (d : Dir) (ops : List MemOp), Decidable (d.RunInside ops)
  | _, [] => isTrue trivial
  | d, op :: ops => @instDecidableAnd _ _ (d.decidableInside op)
      (@Option.decidableForallMem _ _ (fun d' => decidableRunInside d' ops) (d.call op))

end Decidable

end Dir

/-- The lengths that `hwaddr_read` and `hwaddr_write` pass on. -/
def MemOp.Short : MemOp → Prop
  | .read _ len => 1 ≤ len ∧ len ≤ 4
  | .write _ len _ => 1 ≤ len ∧ len ≤ 4

/-- The next line is in other sets. -/
theorem group_ne_next (a : Word) :
    group1 (blockOf a + 64) ≠ group1 a ∧ group2 (blockOf a + 64) ≠ group2 a := by
  have ha := a.isLt
  have h64 : (64 : Word).toNat = 64 := rfl
  rw [group1, group1, group2, group2, BitVec.toNat_add, toNat_blockOf, h64]
  omega

namespace Touches

open Traced

section Inside

variable {junk : ℕ → Byte} {oob : ℕ → ℕ → Byte} {s : Hier} {a : Word} {g x n len : ℕ} {data : Word}

/-! ### What is always inside -/

theorem group1_lt (a : Word) : group1 a < 128 := Nat.mod_lt _ (by norm_num)

theorem group2_lt (a : Word) : group2 a < 4096 := Nat.mod_lt _ (by norm_num)

theorem all_hit1 : All Touch.Inside (hit1 a) s :=
  all_search fun _ hx => ⟨group1_lt a, List.mem_range.mp hx⟩

theorem all_hit2 : All Touch.Inside (hit2 a) s :=
  all_search fun _ hx => ⟨group2_lt a, List.mem_range.mp hx⟩

theorem all_victim1 (hg : g < 128) : All Touch.Inside (victim1 g) s := by
  rw [victim1, all_bind]
  refine ⟨all_search fun _ hx => ⟨hg, List.mem_range.mp hx⟩, ?_⟩
  intro x s' _
  cases x with
  | some x => exact all_pure _ _
  | none => exact all_access _ _

theorem all_victim2 (hg : g < 4096) : All Touch.Inside (victim2 g) s := by
  rw [victim2, all_bind]
  refine ⟨all_search fun _ hx => ⟨hg, List.mem_range.mp hx⟩, ?_⟩
  intro x s' _
  cases x with
  | some x => exact all_pure _ _
  | none => exact all_access _ _

theorem all_fill2 (block : Word) (hg : g < 4096) (hx : x < 16) :
    All Touch.Inside (fill2 junk block g x n) s := by
  apply all_upto
  intro i _ t
  rw [all_bind_access]
  intro v t' _
  rw [all_bind_emit]
  exact ⟨⟨hg, hx⟩, all_write _ _⟩

/-! ### L2 -/

/-- The write-back touches elements of L1. -/
theorem all_writeBack2 (block : Word) :
    All Touch.Inside (writeBack2 junk oob block g x (n + 1)) s ↔ g < 128 ∧ x < 8 := by
  constructor
  · intro h
    have hfirst := all_of_upto h
    rw [all_bind_emit] at hfirst
    exact hfirst.1
  · intro h
    apply all_upto
    intro i _ t
    rw [all_bind_emit]
    exact ⟨h, all_access _ _⟩

theorem all_evict2 (hx : x < 16) : All Touch.Inside (evict2 junk oob a x) s ↔
    ((s.l2 (group2 a) x).dirty = true → group2 a < 128 ∧ x < 8) := by
  rw [evict2, all_bind_emit, all_bind_read, and_iff_right ⟨group2_lt a, hx⟩]
  cases (s.l2 (group2 a) x).dirty with
  | true => simpa using all_writeBack2 (blockOf a)
  | false => simp

theorem all_alloc2 (hm : s.hit2 a = none) :
    All Touch.Inside (alloc2 junk oob a) s ↔ s.dir.VictimInside a := by
  have hx : (s.victim2 (group2 a)).1 < 16 := s.victim2_lt _
  have hdirty : ((s.victim2 (group2 a)).2.l2 (group2 a) (s.victim2 (group2 a)).1).dirty =
      s.dir.dirty (group2 a) (s.victim2 (group2 a)).1 := by
    rw [Hier.victim2_snd]
    rfl
  rw [alloc2, all_bind_of_result result_victim2, and_iff_right (all_victim2 (group2_lt a)), all_bind,
    all_evict2 hx, hdirty, Dir.VictimInside, Hier.hit2_dir, Hier.way2_dir]
  constructor
  · intro h _
    exact h.1
  · intro h
    refine ⟨h hm, ?_⟩
    intro _ t _
    rw [all_bind_emit, all_bind_write, all_bind]
    exact ⟨⟨group2_lt a, hx⟩, all_fill2 _ (group2_lt a) hx, fun _ _ _ => all_pure _ _⟩

/-- **Serving a line in L2.** -/
theorem all_line2 : All Touch.Inside (line2 junk oob a) s ↔ s.dir.VictimInside a := by
  rw [line2, all_bind_of_result result_hit2, and_iff_right all_hit2]
  cases hh : s.hit2 a with
  | some x =>
    have hhit : s.dir.VictimInside a := by
      apply Dir.victimInside_of_hit
      rw [Hier.hit2_dir, hh]
      rfl
    simp [hhit]
  | none => exact all_alloc2 hh

theorem all_cache2Read (hlen : offsetOf a + len ≤ 64) :
    All Touch.Inside (cache2Read junk oob a len) s ↔ s.dir.VictimInside a := by
  rw [cache2Read, all_bind, all_line2]
  apply and_iff_left
  intro y t ht
  rw [result_line2] at ht
  obtain ⟨hy, -⟩ := Hier.holds2_of_hit2 (hit2_of_line2 ht)
  rw [all_bind_emit, all_bind_read, if_neg (by omega)]
  exact ⟨⟨group2_lt a, hy⟩, all_pure _ _⟩

theorem all_cache2WriteLine : All Touch.Inside (cache2WriteLine junk oob a len data) s ↔
    ((dramWrite junk s.dram a len data).isSome = true → s.dir.VictimInside a) := by
  rw [cache2WriteLine, all_bind_of_result result_hit2, and_iff_right all_hit2]
  cases hh : s.hit2 a with
  | some x =>
    obtain ⟨hx, -⟩ := Hier.holds2_of_hit2 hh
    have hhit : s.dir.VictimInside a := by
      apply Dir.victimInside_of_hit
      rw [Hier.hit2_dir, hh]
      rfl
    dsimp only
    rw [all_bind_emit]
    exact iff_of_true ⟨⟨group2_lt a, hx⟩, all_write _ _⟩ fun _ => hhit
  | none =>
    dsimp only
    rw [all_bind_access]
    cases dramWrite junk s.dram a len data with
    | none => simp
    | some d =>
      have hh' : ({ s with dram := d } : Hier).hit2 a = none := hh
      have halloc : All Touch.Inside (alloc2 junk oob a) { s with dram := d } ↔ s.dir.VictimInside a :=
        all_alloc2 hh'
      constructor
      · intro h _
        have hrest := h () _ rfl
        rw [all_bind, halloc] at hrest
        exact hrest.1
      · intro h _ t ht
        obtain ⟨-, rfl⟩ := Prod.mk.inj (Option.some.inj ht)
        rw [all_bind, halloc]
        exact ⟨h rfl, fun _ _ _ => all_pure _ _⟩

/-! ### L1 -/

theorem all_fillByte1 (hg : g < 128) (hx : x < 8) (hn : n < 64) :
    All Touch.Inside (fillByte1 junk oob (blockOf a) g x n) s ↔ s.dir.VictimInside a := by
  have hblock := toNat_block_add a hn
  have hline : s.dir.VictimInside (blockOf a + BitVec.ofNat 32 n) ↔ s.dir.VictimInside a := by
    apply Dir.victimInside_line
    omega
  rw [fillByte1, all_bind, all_cache2Read (by simp only [offsetOf]; omega), hline]
  apply and_iff_left
  intro v t _
  rw [all_bind_emit]
  exact ⟨⟨hg, hx⟩, all_write _ _⟩

/-- **Filling a line of L1** reads the line from L2. -/
theorem all_fill1 (hg : g < 128) (hx : x < 8) (hn : n < 64) :
    All Touch.Inside (fill1 junk oob (blockOf a) g x (n + 1)) s ↔ s.dir.VictimInside a := by
  induction n with
  | zero => exact all_upto_one.trans (all_fillByte1 hg hx hn)
  | succ n ih =>
    have hlast : n + 1 < 64 := hn
    rw [fill1, all_upto_succ, ← fill1, ih (by omega)]
    apply and_iff_left
    intro t ht
    rw [all_fillByte1 hg hx hlast]
    -- the line is in L2 by now
    apply Dir.victimInside_of_hit
    apply Dir.hit2_of_serve2 (d := s.dir)
    rw [result_fill1] at ht
    rcases Option.map_eq_some_iff.mp ht with ⟨t', ht', heq⟩
    obtain ⟨-, rfl⟩ := Prod.mk.inj heq
    rw [← dir_fill1 junk oob s a g x (n := n) (by omega), ht']
    rfl

theorem all_alloc1 : All Touch.Inside (alloc1 junk oob a) s ↔
    (s.dir.drawn1 (group1 a)).VictimInside a := by
  have hx : (s.victim1 (group1 a)).1 < 8 := s.victim1_lt _
  have hl1 : (s.victim1 (group1 a)).2.l1 = s.l1 := by rw [Hier.victim1_snd]
  have hclaim : (s.victim1 (group1 a)).2.setL1 (group1 a) (s.victim1 (group1 a)).1
      { (s.victim1 (group1 a)).2.l1 (group1 a) (s.victim1 (group1 a)).1 with valid := true, tag := tag1 a } =
      s.claim1 a := by rw [hl1, Hier.claim1]
  have hdir : (s.claim1 a).dir.VictimInside a ↔ (s.dir.drawn1 (group1 a)).VictimInside a := by
    rw [dir_claim1]
    rfl
  rw [alloc1, all_bind_of_result result_victim1, and_iff_right (all_victim1 (group1_lt a)), all_bind_emit,
    and_iff_right ⟨group1_lt a, hx⟩, all_bind_write, hclaim, all_bind, all_fill1 (group1_lt a) hx (by norm_num),
    hdir]
  exact and_iff_left fun _ _ _ => all_pure _ _

/-- **Serving a line in L1.** -/
theorem all_line1 : All Touch.Inside (line1 junk oob a) s ↔ s.dir.LineInside a := by
  rw [line1, all_bind_of_result result_hit1, and_iff_right all_hit1, Dir.LineInside, Hier.hit1_dir]
  cases hh : s.hit1 a with
  | some x => simp
  | none => simpa using all_alloc1

theorem line1_lt {t : Hier} (h : Nemu.line1 junk oob s a = some (x, t)) : x < 8 := by
  cases hh : s.hit1 a with
  | some y =>
    rw [Nemu.line1, hh] at h
    obtain ⟨rfl, -⟩ := Prod.mk.inj (Option.some.inj h)
    exact (Hier.holds1_of_hit1 hh).1
  | none =>
    rw [line1_miss hh] at h
    rcases Option.bind_eq_some_iff.mp h with ⟨u, -, hu⟩
    obtain ⟨rfl, -⟩ := Prod.mk.inj (Option.some.inj hu)
    exact s.victim1_lt _

/-- The state after the first line of a read, where there is one. -/
theorem served_line1_iff {P : Dir → Prop} (hP : ∀ d, s.dir.serve1 a = some d → (P d ↔ P (s.dir.draw1 a))) :
    (∀ y t, Nemu.line1 junk oob s a = some (y, t) → P t.dir) ↔ (s.dir.Has1 a → P (s.dir.draw1 a)) := by
  rw [← Dir.serve1_isSome, ← dir_line1 junk oob]
  cases hl : Nemu.line1 junk oob s a with
  | none => simp
  | some r =>
    rcases r with ⟨y, t⟩
    simp [hP _ (dir_of_line1 hl)]

/-- **The touches of a read.** -/
theorem all_cache1Read : All Touch.Inside (cache1Read junk oob a len) s ↔ s.dir.ReadInside a len := by
  have hnext : ∀ d, s.dir.serve1 a = some d →
      (d.LineInside (blockOf a + 64) ↔ (s.dir.draw1 a).LineInside (blockOf a + 64)) := by
    intro d hd
    exact (Dir.sameAt_serve1 hd (group_ne_next a).1 (group_ne_next a).2).lineInside
  rw [cache1Read, all_bind, all_line1, Dir.ReadInside]
  apply and_congr_right
  intro _
  by_cases hx : 64 < offsetOf a + len
  · rw [forall_prop_of_true hx, ← served_line1_iff hnext]
    apply forall₂_congr
    intro y t
    rw [result_line1]
    apply forall_congr'
    intro hl
    rw [all_bind_emit, and_iff_right ⟨group1_lt a, line1_lt hl⟩, all_bind_read, if_pos hx]
    dsimp only
    rw [all_bind, all_line1]
    apply and_iff_left
    intro z u hu
    rw [result_line1] at hu
    rw [all_bind_emit, all_bind_read]
    exact ⟨⟨group1_lt _, line1_lt hu⟩, all_pure _ _⟩
  · refine iff_of_true ?_ fun h => absurd h hx
    intro y t hl
    rw [result_line1] at hl
    rw [all_bind_emit, all_bind_read, if_neg hx]
    exact ⟨⟨group1_lt a, line1_lt hl⟩, all_pure _ _⟩

theorem dramWrite_isSome_iff (d : Dram) (hlen : offsetOf a + len ≤ 64) :
    (dramWrite junk d a len data).isSome = true ↔ a.toNat < hwMemSize := by
  constructor
  · intro h
    by_contra ha
    rw [dramWrite_none junk d ha] at h
    exact absurd h (by simp)
  · intro ha
    exact dramWrite_isSome junk d hlen ha data

/-- The touches of a write inside a line. -/
theorem all_cache1WriteLine (hlen : offsetOf a + len ≤ 64) :
    All Touch.Inside (cache1WriteLine junk oob a len data) s ↔ s.dir.WriteLineInside a := by
  have hcross : ¬ offsetOf a + len - 1 > 0x3f := by omega
  have hline : cache2Write junk oob a len data = cache2WriteLine junk oob a len data := if_neg hcross
  rw [cache1WriteLine, all_bind_of_result result_hit1, and_iff_right all_hit1, hline, all_bind,
    all_cache2WriteLine, dramWrite_isSome_iff _ hlen, Dir.WriteLineInside]
  apply and_iff_left
  intro _ t ht
  cases hh : s.hit1 a with
  | none => exact all_pure _ _
  | some x =>
    obtain ⟨hx, -⟩ := Hier.holds1_of_hit1 hh
    dsimp only
    rw [all_fill1 (group1_lt a) hx (by norm_num)]
    -- the line was written to L2 before
    apply Dir.victimInside_of_hit
    rw [result_cache2WriteLine] at ht
    rcases Option.map_eq_some_iff.mp ht with ⟨t', ht', heq⟩
    obtain ⟨-, rfl⟩ := Prod.mk.inj heq
    exact Dir.hit2_of_writeLine (dir_of_cache2WriteLine ht')

/-- **The touches of a write.** -/
theorem all_cache1Write (h1 : 1 ≤ len) (h4 : len ≤ 4) :
    All Touch.Inside (cache1Write junk oob a len data) s ↔ s.dir.WriteInside a len := by
  rw [cache1Write, Dir.WriteInside]
  by_cases hx : 64 < offsetOf a + len
  · have hcross : offsetOf a + len - 1 > 0x3f := by omega
    have hfront : offsetOf a + (0x3f - offsetOf a + 1) ≤ 64 := by
      simp only [offsetOf]
      omega
    have hback : offsetOf (blockOf a + 64) + (len - (0x3f - offsetOf a + 1)) ≤ 64 := by
      rw [offsetOf_next]
      omega
    rw [if_pos hcross, forall_prop_of_true hx]
    dsimp only
    rw [all_bind, all_cache1WriteLine hfront, add_front]
    apply and_congr_right
    intro _
    rw [result_cache1WriteLine]
    constructor
    · intro h hhas
      rw [Dir.Has2, Hier.hit2_dir] at hhas
      obtain ⟨t, ht⟩ := Option.isSome_iff_exists.mp (cache1WriteLine_isSome junk oob hfront
        hhas (data &&& (1#32 <<< ((0x3f - offsetOf a + 1) * 8) - 1)))
      have hrest := h () t (by rw [ht]; rfl)
      rw [all_cache1WriteLine hback] at hrest
      intro hram
      exact (Dir.sameAt_writeLine (dir_of_cache1WriteLine hfront ht) (group_ne_next a).2).victimInside.mp
        (hrest hram)
    · intro h _ t ht
      rcases Option.map_eq_some_iff.mp ht with ⟨t', ht', heq⟩
      obtain ⟨-, rfl⟩ := Prod.mk.inj heq
      have hdir := dir_of_cache1WriteLine hfront ht'
      rw [all_cache1WriteLine hback]
      intro hram
      exact (Dir.sameAt_writeLine hdir (group_ne_next a).2).victimInside.mpr (h (Dir.writeLine_isSome.mp (by rw [hdir]; rfl)) hram)
  · rw [if_neg (by omega), all_cache1WriteLine (by omega)]
    exact (and_iff_left fun h => absurd h hx).symm

/-- **The touches of a call.** -/
theorem all_call {op : MemOp} (h : op.Short) :
    All Touch.Inside (call junk oob op) s ↔ s.dir.Inside op := by
  cases op with
  | read a len =>
    rw [call, all_bind, all_cache1Read]
    exact and_iff_left fun _ _ _ => all_pure _ _
  | write a len data => exact all_cache1Write h.1 h.2

/-! ### Runs -/

/-- Each call of a run meets the condition in the directory before it. -/
def CallsInside (junk : ℕ → Byte) (oob : ℕ → ℕ → Byte) (s : Hier) : List MemOp → Prop
  | [] => True
  | op :: ops => s.dir.Inside op ∧ ∀ s', cacheCall junk oob s op = some s' → CallsInside junk oob s' ops

theorem all_calls {ops : List MemOp} (h : ∀ op ∈ ops, op.Short) :
    All Touch.Inside (calls junk oob ops) s ↔ CallsInside junk oob s ops := by
  induction ops generalizing s with
  | nil => simp [calls, CallsInside]
  | cons op ops ih =>
    rw [List.forall_mem_cons] at h
    rw [calls, all_bind, all_call h.1, CallsInside, result_call]
    apply and_congr_right
    intro _
    constructor
    · intro hall s' hs'
      rw [← ih h.2]
      exact hall () s' (by rw [hs']; rfl)
    · intro hall _ s' hs'
      rcases Option.map_eq_some_iff.mp hs' with ⟨t, ht, heq⟩
      obtain ⟨-, rfl⟩ := Prod.mk.inj heq
      rw [ih h.2]
      exact hall t ht

/-- The directory is enough to tell. -/
theorem callsInside_of_dir : ∀ {ops : List MemOp} {s : Hier}, (∀ op ∈ ops, op.Short) → s.dir.RunInside ops →
    CallsInside junk oob s ops
  | [], _, _, _ => trivial
  | op :: ops, s, h, hin => by
    rw [List.forall_mem_cons] at h
    refine ⟨hin.1, fun s' hs' => callsInside_of_dir h.2 (hin.2 _ ?_)⟩
    cases op with
    | read a len =>
      rcases Option.map_eq_some_iff.mp hs' with ⟨⟨v, t⟩, hr, rfl⟩
      exact dir_of_cache1Read hr
    | write a len data => exact dir_of_cache1Write h.1.1 h.1.2 hs'

/-- **The elements that a run touches exist** if and only if each call replaces dirty lines of L2
only in sets and ways that L1 has as well. -/
theorem calls_inside_iff (s : Hier) (ops : List MemOp) (h : ∀ op ∈ ops, op.Short) :
    All Touch.Inside (calls junk oob ops) (initCache s) ↔ CallsInside junk oob (initCache s) ops :=
  all_calls h

end Inside

/-- Two writes of line 0 of set 1 of L2, reads of sixteen other lines of it, and a write across the start of line 0. -/
def replacing : List MemOp :=
  .write (conflict 0) 4 1 :: .write (conflict 0) 4 2 :: (List.range 16).map (fun k => .read (conflict (k + 1)) 4) ++ [.write 0x3e 4 3]

/-- The last of the reads replaces line 0, which is dirty; L1 has set 1 and way 0 as well. -/
theorem calls_inside_iff_replacing :
    (∃ d, (replacing.take 17).foldlM Dir.call (initCache blankMemory.cache).dir = some d ∧ d.hit2 (conflict 16) = none ∧
      d.way2 1 = 0 ∧ d.dirty 1 0 = true) ∧
    All Touch.Inside (calls (fun _ => 0) (fun _ _ => 0) replacing) (initCache blankMemory.cache) := by
  have hshort : ∀ op ∈ replacing, op.Short := by
    simp only [replacing, List.cons_append, List.forall_mem_cons, List.forall_mem_append, List.forall_mem_map, MemOp.Short]
    exact ⟨by norm_num, by norm_num, fun _ _ => by norm_num, by norm_num, nofun⟩
  have hway : (((replacing.take 17).foldlM Dir.call (initCache blankMemory.cache).dir).map fun d =>
      (d.hit2 (conflict 16), d.way2 1, d.dirty 1 0)) = some (none, 0, true) := by
    decide +kernel
  obtain ⟨d, hd, heq⟩ := Option.map_eq_some_iff.mp hway
  simp only [Prod.mk.injEq] at heq
  exact ⟨⟨d, hd, heq⟩, (calls_inside_iff blankMemory.cache replacing hshort).mpr (callsInside_of_dir hshort (by decide +kernel))⟩

/-! ### A run that leaves L1 -/

/-- The `k`-th line of set 128 of L2. -/
def beyond (k : ℕ) : Word := BitVec.ofNat 32 (0x2000 + k * 2 ^ 18)

/-- Writes of these lines, from the `k`-th on. -/
def writesFrom (k : ℕ) : ℕ → List MemOp
  | 0 => []
  | n + 1 => .write (beyond k) 4 0 :: writesFrom (k + 1) n

/-- Two writes of one line, and one of each of sixteen other lines in its set. -/
def overrun : List MemOp := .write (beyond 0) 4 0 :: writesFrom 0 17

/-- The first `k` ways of set 128 of L2 hold the first `k` lines, and the others are free. -/
structure Packed (k : ℕ) (d : Dir) : Prop where
  l2 : ∀ x < 16, d.l2 128 x = if x < k then some x else none
  rand : ∀ n, d.rand n = 0

section Overrun

variable {junk : ℕ → Byte} {oob : ℕ → ℕ → Byte} {s : Hier} {d : Dir} {k : ℕ}

theorem toNat_beyond (hk : k ≤ 16) : (beyond k).toNat = 0x2000 + k * 2 ^ 18 := by
  rw [beyond, BitVec.toNat_ofNat]
  omega

theorem group2_beyond (hk : k ≤ 16) : group2 (beyond k) = 128 := by
  rw [group2, toNat_beyond hk]
  omega

theorem tag2_beyond (hk : k ≤ 16) : tag2 (beyond k) = k := by
  rw [tag2, toNat_beyond hk]
  omega

theorem beyond_inside (hk : k ≤ 16) : offsetOf (beyond k) + 4 ≤ 64 ∧ (beyond k).toNat < hwMemSize := by
  rw [offsetOf, toNat_beyond hk, hwMemSize]
  omega

/-- The next line is not there. -/
theorem Packed.hit2 (h : Packed k d) (hk : k ≤ 16) : d.hit2 (beyond k) = none := by
  apply List.find?_eq_none.mpr
  intro x hx
  rw [group2_beyond hk, tag2_beyond hk, h.l2 x (List.mem_range.mp hx)]
  split_ifs with hxk
  · simp [hxk.ne]
  · simp

theorem Packed.free (h : Packed k d) (hk : k < 16) : free ways2 d.l2 128 = some k := by
  unfold SetAssoc.free ways2
  rw [List.find?_range_eq_some]
  refine ⟨?_, List.mem_range.mpr hk, ?_⟩
  · simp [h.l2 k hk]
  · intro x hx
    simp [h.l2 x (by omega), hx]

/-- The next line fills the next way. -/
theorem Packed.write (h : Packed k d) (hk : k < 16) :
    ∃ d', d.writeLine (beyond k) = some d' ∧ Packed (k + 1) d' ∧ ∀ x ≠ k, d'.dirty 128 x = d.dirty 128 x := by
  have hway : d.way2 128 = k := by rw [Dir.way2, h.free hk, Option.getD_some]
  have hdrawn : d.drawn2 128 = d := by
    rw [Dir.drawn2, h.free hk]
    rfl
  have hwrite : d.writeLine (beyond k) = some (d.fill2 (beyond k)) := by
    rw [Dir.writeLine, h.hit2 hk.le]
    dsimp only
    rw [Dir.serve2, h.hit2 hk.le, if_neg (by simp), if_pos (beyond_inside hk.le).2]
  have hfill : d.fill2 (beyond k) = { d with l2 := install d.l2 128 k k, dirty := put d.dirty 128 k false } := by
    rw [Dir.fill2, group2_beyond hk.le, tag2_beyond hk.le, hway, hdrawn]
  refine ⟨d.fill2 (beyond k), hwrite, ?_, ?_⟩
  · rw [hfill]
    refine ⟨?_, h.rand⟩
    intro x hx
    by_cases hxk : x = k
    · simp [hxk, install]
    · have hlt : x < k + 1 ↔ x < k := by omega
      have hother : put d.l2 128 k (some k) 128 x = d.l2 128 x := put_of_ne fun he => hxk he.2
      simp only [install, hother, h.l2 x hx, hlt]
  · intro x hx
    rw [hfill]
    exact put_of_ne fun he => hx he.2

variable (junk oob) in
/-- A write of a line of the memory returns. -/
theorem call_beyond (hk : k ≤ 16) (s : Hier) : ∃ s', cacheCall junk oob s (.write (beyond k) 4 0) = some s' ∧
    s.dir.writeLine (beyond k) = some s'.dir := by
  obtain ⟨hlen, hram⟩ := beyond_inside hk
  obtain ⟨s', hs'⟩ := Option.isSome_iff_exists.mp
    (cache1WriteLine_isSome junk oob (s := s) hlen (.inr hram) 0)
  refine ⟨s', ?_, dir_of_cache1WriteLine hlen hs'⟩
  rw [cacheCall, Nemu.cache1Write, if_neg (by omega)]
  exact hs'

/-- **The seventeenth line** replaces the dirty one in way 0 of set 128. -/
theorem Packed.not_inside (h : Packed 16 d) (hdirty : d.dirty 128 0 = true) :
    ¬ d.Inside (.write (beyond 16) 4 0) := by
  have hway : d.way2 128 = 0 := by
    have hfree : SetAssoc.free ways2 d.l2 128 = none := by
      apply List.find?_eq_none.mpr
      intro x hx
      have hx16 : x < 16 := List.mem_range.mp hx
      simp [h.l2 x hx16, hx16]
    rw [Dir.way2, hfree, Option.getD_none, h.rand]
  intro hin
  have hvictim := hin.1 (beyond_inside le_rfl).2 (h.hit2 le_rfl)
  rw [group2_beyond le_rfl, hway] at hvictim
  exact absurd (hvictim hdirty).1 (lt_irrefl 128)

theorem Packed.not_callsInside {n : ℕ} (h : Packed k s.dir) (hk : 1 ≤ k) (hn : k + n = 16)
    (hdirty : s.dir.dirty 128 0 = true) : ¬ CallsInside junk oob s (writesFrom k (n + 1)) := by
  induction n generalizing k s with
  | zero =>
    obtain rfl : k = 16 := hn
    intro hin
    exact h.not_inside hdirty hin.1
  | succ n ih =>
    obtain ⟨s', hs', hwrite⟩ := call_beyond junk oob (k := k) (by omega) s
    obtain ⟨d', hd', hpacked, hsame⟩ := h.write (by omega)
    obtain rfl : d' = s'.dir := Option.some.inj (hd'.symm.trans hwrite)
    intro hin
    apply ih hpacked (by omega) (by omega) _ (hin.2 s' hs')
    rw [hsame 0 (by omega), hdirty]

/-- A second write of the first line finds it and makes it dirty. -/
theorem Packed.rewrite (h : Packed 1 d) :
    ∃ d', d.writeLine (beyond 0) = some d' ∧ Packed 1 d' ∧ d'.dirty 128 0 = true := by
  have hhit : d.hit2 (beyond 0) = some 0 := by
    rw [Dir.hit2, group2_beyond (Nat.zero_le _), tag2_beyond (Nat.zero_le _), find, ways2,
      List.find?_range_eq_some]
    simp [h.l2 0]
  refine ⟨{ d with dirty := put d.dirty 128 0 true }, ?_, ⟨h.l2, h.rand⟩, by simp⟩
  rw [Dir.writeLine, hhit]
  dsimp only
  rw [group2_beyond (Nat.zero_le _)]

theorem Packed.not_callsInside_overrun (h : Packed 0 s.dir) : ¬ CallsInside junk oob s overrun := by
  obtain ⟨s₁, hs₁, hwrite₁⟩ := call_beyond junk oob (Nat.zero_le 16) s
  obtain ⟨d₁, hd₁, hpacked₁, -⟩ := h.write (by norm_num)
  obtain rfl : d₁ = s₁.dir := Option.some.inj (hd₁.symm.trans hwrite₁)
  obtain ⟨s₂, hs₂, hwrite₂⟩ := call_beyond junk oob (Nat.zero_le 16) s₁
  obtain ⟨d₂, hd₂, hpacked₂, hdirty⟩ := hpacked₁.rewrite
  obtain rfl : d₂ = s₂.dir := Option.some.inj (hd₂.symm.trans hwrite₂)
  intro hin
  have hrest : CallsInside junk oob s₂ (writesFrom 1 16) := (hin.2 s₁ hs₁).2 s₂ hs₂
  exact hpacked₂.not_callsInside le_rfl rfl hdirty hrest

theorem overrun_short : ∀ op ∈ overrun, op.Short := by
  have hfrom : ∀ n k, ∀ op ∈ writesFrom k n, op.Short := by
    intro n
    induction n with
    | zero => simp [writesFrom]
    | succ n ih =>
      intro k
      rw [writesFrom, List.forall_mem_cons]
      exact ⟨⟨by norm_num, le_rfl⟩, ih (k + 1)⟩
  rw [overrun, List.forall_mem_cons]
  exact ⟨⟨by norm_num, le_rfl⟩, hfrom 17 0⟩

end Overrun

/-- **The write-back of the line in way 0** reads set 128 of L1, which has 128 sets. -/
theorem calls_not_inside : (∀ op ∈ overrun, op.Short) ∧
    ¬ All Touch.Inside (calls (fun _ => 0) (fun _ _ => 0) overrun) (initCache blankMemory.cache) := by
  refine ⟨overrun_short, ?_⟩
  rw [all_calls overrun_short]
  apply Packed.not_callsInside_overrun
  constructor
  · intro x _
    rfl
  · intro n
    rfl

end Touches

end Nemu
