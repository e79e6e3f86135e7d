/-
# The two-level cache

`cache.c`: L1 is 128 sets of 8 ways, write-through without allocation on a
write; L2 is 4096 sets of 16 ways, write-back with allocation. A line is 64
bytes, the victim of a full set is `rand()`'s choice, and an access that
crosses a line is made of two.

A line keeps its `tag` only: the `offset` and `group` that the union also
stores are set by `init_cache` and never read. When L2 replaces a dirty line
it writes `L1[group].cache[x]` to the address of the *new* block; `group` runs
to 4095 there and `x` to 15, past the end of `L1` for most sets: `l1Raw` is
the flat index the C expression denotes, and `oob` what lies behind `L1`.

Key definitions: `Hier`, `cache1Read`, `cache1Write`, `cache2Read`,
`cache2Write`, `initCache`.
-/
import Nemu.Memory.Dram

namespace Nemu

open Bytes

/-! ### Lines and sets -/

structure Cache1 where
  valid : Bool
  tag : ℕ
  data : ℕ → Byte

structure Cache2 where
  valid : Bool
  dirty : Bool
  tag : ℕ
  data : ℕ → Byte

/-- `L1[group].cache[way]`, `L2[group].cache[way]`, the DRAM below them and
what `rand()` will return. -/
structure Hier where
  l1 : ℕ → ℕ → Cache1
  l2 : ℕ → ℕ → Cache2
  dram : Dram
  rand : ℕ → ℕ

def offsetOf (a : Word) : ℕ := a.toNat % 64
def group1 (a : Word) : ℕ := a.toNat / 64 % 128
def tag1 (a : Word) : ℕ := a.toNat / 64 / 128
def group2 (a : Word) : ℕ := a.toNat / 64 % 4096
def tag2 (a : Word) : ℕ := a.toNat / 64 / 4096

/-- `addr & (~0u << BLOCK_BIT)`. -/
def blockOf (a : Word) : Word := a &&& (BitVec.allOnes 32 <<< 6)

/-- `init_cache`: every line is cleared. -/
def initCache (s : Hier) : Hier :=
  { s with
    l1 := fun _ _ => ⟨false, 0, fun _ => 0⟩
    l2 := fun _ _ => ⟨false, false, 0, fun _ => 0⟩ }

namespace Hier

def setL1 (s : Hier) (g x : ℕ) (c : Cache1) : Hier :=
  { s with l1 := fun g' x' => if g' = g ∧ x' = x then c else s.l1 g' x' }

def setL2 (s : Hier) (g x : ℕ) (c : Cache2) : Hier :=
  { s with l2 := fun g' x' => if g' = g ∧ x' = x then c else s.l2 g' x' }

/-- The way of L1 that holds the line of `a`: the first that is valid with
its tag. -/
def hit1 (s : Hier) (a : Word) : Option ℕ :=
  (List.range 8).find? fun x => (s.l1 (group1 a) x).valid && (s.l1 (group1 a) x).tag == tag1 a

def hit2 (s : Hier) (a : Word) : Option ℕ :=
  (List.range 16).find? fun x => (s.l2 (group2 a) x).valid && (s.l2 (group2 a) x).tag == tag2 a

/-- `rand()`. -/
def drawRand (s : Hier) : ℕ × Hier := (s.rand 0, { s with rand := fun n => s.rand (n + 1) })

/-- The way of L1 to fill: the first invalid one, or `rand() % WAY_NUM`. -/
def victim1 (s : Hier) (g : ℕ) : ℕ × Hier :=
  match (List.range 8).find? fun x => !(s.l1 g x).valid with
  | some x => (x, s)
  | none => (s.drawRand.1 % 8, s.drawRand.2)

def victim2 (s : Hier) (g : ℕ) : ℕ × Hier :=
  match (List.range 16).find? fun x => !(s.l2 g x).valid with
  | some x => (x, s)
  | none => (s.drawRand.1 % 16, s.drawRand.2)

end Hier

section Caches

variable (junk : ℕ → Byte) (oob : ℕ → ℕ → Byte)

/-- `L1[group].cache[x].data[i]` for any `group` and `x`: `L1` is one array
of 128 · 8 lines, and `oob` is what follows it. -/
def l1Raw (s : Hier) (g x i : ℕ) : Byte :=
  if g * 8 + x < 1024 then (s.l1 ((g * 8 + x) / 8) ((g * 8 + x) % 8)).data i
  else oob (g * 8 + x) i

/-! ### L2 -/

/-- The write-back of a dirty victim, `n` bytes of it, as the code does it. -/
def writeBack2 (s : Hier) (block : Word) (g x : ℕ) : ℕ → Option Hier
  | 0 => some s
  | n + 1 => do
    let s ← writeBack2 s block g x n
    let d ← dramWrite junk s.dram (block + BitVec.ofNat 32 n) 1 ((l1Raw oob s g x n).setWidth 32)
    return { s with dram := d }

/-- Read the first `n` bytes of a block from DRAM into a line of L2. -/
def fill2 (s : Hier) (block : Word) (g x : ℕ) : ℕ → Option Hier
  | 0 => some s
  | n + 1 => do
    let s ← fill2 s block g x n
    let (v, d) ← dramRead junk s.dram (block + BitVec.ofNat 32 n) 1
    let c := s.l2 g x
    let s := { s with dram := d }
    return s.setL2 g x
      { c with data := fun i => if i = n then byte (v &&& low 1) 0 else c.data i }

/-- The miss branch of `Cache_2_read` and `Cache_2_write`: choose a way, write
a dirty victim back, and fill. -/
def alloc2 (s : Hier) (a : Word) : Option (ℕ × Hier) := do
  let g := group2 a
  let (x, s) := s.victim2 g
  let s ← if (s.l2 g x).dirty then writeBack2 junk oob s (blockOf a) g x 64 else some s
  let s := s.setL2 g x { s.l2 g x with valid := true, tag := tag2 a, dirty := false }
  let s ← fill2 junk s (blockOf a) g x 64
  return (x, s)

/-- The way of L2 that holds the line of `a`, after a miss is served. -/
def line2 (s : Hier) (a : Word) : Option (ℕ × Hier) :=
  match s.hit2 a with
  | some x => some (x, s)
  | none => alloc2 junk oob s a

/-- `Cache_2_read`. The nested call starts a line, so it does not cross. -/
def cache2Read (s : Hier) (a : Word) (len : ℕ) : Option (Word × Hier) := do
  let (x, s) ← line2 junk oob s a
  let c := s.l2 (group2 a) x
  let temp := fun i => if i < 64 then c.data i else junk i
  if offsetOf a + len > 64 then
    let next := blockOf a + 64
    let (y, s) ← line2 junk oob s next
    let c' := s.l2 (group2 next) y
    let temp := fun i => if 64 ≤ i ∧ i < 68 then c'.data (i - 64) else temp i
    return (word (fun i => temp (offsetOf a + i)) 4, s)
  else return (word (fun i => temp (offsetOf a + i)) 4, s)

/-- `Cache_2_write` inside one line. -/
def cache2WriteLine (s : Hier) (a : Word) (len : ℕ) (data : Word) : Option Hier :=
  match s.hit2 a with
  | some x =>
    let c := s.l2 (group2 a) x
    some (s.setL2 (group2 a) x { c with
      dirty := true
      data := fun i =>
        if offsetOf a ≤ i ∧ i < offsetOf a + len then byte data (i - offsetOf a) else c.data i })
  | none => do
    let d ← dramWrite junk s.dram a len data
    let (_, s) ← alloc2 junk oob { s with dram := d } a
    return s

/-- `Cache_2_write`. -/
def cache2Write (s : Hier) (a : Word) (len : ℕ) (data : Word) : Option Hier :=
  if offsetOf a + len - 1 > 0x3f then do
    let front := 0x3f - offsetOf a + 1
    let s ← cache2WriteLine junk oob s a front (data &&& (1#32 <<< (front * 8) - 1))
    cache2WriteLine junk oob s (a + BitVec.ofNat 32 front) (len - front) (data >>> (8 * front))
  else cache2WriteLine junk oob s a len data

/-! ### L1 -/

/-- Read the first `n` bytes of a block from L2 into a line of L1. -/
def fill1 (s : Hier) (block : Word) (g x : ℕ) : ℕ → Option Hier
  | 0 => some s
  | n + 1 => do
    let s ← fill1 s block g x n
    let (v, s) ← cache2Read junk oob s (block + BitVec.ofNat 32 n) 1
    let c := s.l1 g x
    return s.setL1 g x
      { c with data := fun i => if i = n then byte (v &&& low 1) 0 else c.data i }

/-- The way of L1 that holds the line of `a`, after a read miss is served. -/
def line1 (s : Hier) (a : Word) : Option (ℕ × Hier) :=
  match s.hit1 a with
  | some x => some (x, s)
  | none => do
    let g := group1 a
    let (x, s) := s.victim1 g
    let s := s.setL1 g x { s.l1 g x with valid := true, tag := tag1 a }
    let s ← fill1 junk oob s (blockOf a) g x 64
    return (x, s)

/-- `Cache_1_read`. The nested call starts a line, so it does not cross. -/
def cache1Read (s : Hier) (a : Word) (len : ℕ) : Option (Word × Hier) := do
  let (x, s) ← line1 junk oob s a
  let c := s.l1 (group1 a) x
  let temp := fun i => if i < 64 then c.data i else junk i
  if offsetOf a + len > 64 then
    let next := blockOf a + 64
    let (y, s) ← line1 junk oob s next
    let c' := s.l1 (group1 next) y
    let temp := fun i => if 64 ≤ i ∧ i < 68 then c'.data (i - 64) else temp i
    return (word (fun i => temp (offsetOf a + i)) 4, s)
  else return (word (fun i => temp (offsetOf a + i)) 4, s)

/-- `Cache_1_write` inside one line: L2 is written, and a line L1 holds is
read again from it. -/
def cache1WriteLine (s : Hier) (a : Word) (len : ℕ) (data : Word) : Option Hier := do
  let s' ← cache2Write junk oob s a len data
  match s.hit1 a with
  | some x => fill1 junk oob s' (blockOf a) (group1 a) x 64
  | none => return s'

/-- `Cache_1_write`. -/
def cache1Write (s : Hier) (a : Word) (len : ℕ) (data : Word) : Option Hier :=
  if offsetOf a + len - 1 > 0x3f then do
    let front := 0x3f - offsetOf a + 1
    let s ← cache1WriteLine junk oob s a front (data &&& (1#32 <<< (front * 8) - 1))
    cache1WriteLine junk oob s (a + BitVec.ofNat 32 front) (len - front) (data >>> (8 * front))
  else cache1WriteLine junk oob s a len data

end Caches

end Nemu
