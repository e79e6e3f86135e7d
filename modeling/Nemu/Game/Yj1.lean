/-
# YJ_1

`Decompress` of `yj1.c`. A file has a header, a Huffman tree as an array of
nodes, and blocks. A block is stored, or it is a stream of bits: rounds of
literals and of copies of what is already there, each with its number in front,
until a number is 0. The numbers are coded with the tables of the block's header.

Pointers are offsets into the source. An access outside of the source, of the
tree or of the destination is undefined, and ends the run; so does a shift by
more than the width, when `get_bits` is asked for more bits than two words have.

Key definitions: `getBits`, `getLoop`, `getCount`, `walk`, `rounds`, `decompress`.
Key theorems: `getBits_of_reads`, `getBits_halts`, `decompress_halts`.
-/
import Nemu.Lib.BitStream

namespace Nemu

namespace Yj1

open Bytes BitStream

/-- How a run ends other than by a return. -/
inductive Stop where
  | outside | shift | outOfFuel
  deriving DecidableEq

theorem ok_bind {α β : Type} (a : α) (f : α → Except Stop β) : (.ok a >>= f) = f a := rfl

/-! ### The source -/

section Source

variable (source : List Byte)

def byteAt (i : ℕ) : Except Stop Byte :=
  match source[i]? with
  | some b => .ok b
  | none => .error .outside

/-- A field of 16 bits; `SWAP16` does nothing. -/
def halfAt (i : ℕ) : Except Stop ℕ :=
  match word16 source i with
  | some w => .ok w
  | none => .error .outside

/-- A field of 32 bits. -/
def wordAt (i : ℕ) : Except Stop ℕ := do
  let lo ← halfAt source i
  let hi ← halfAt source (i + 2)
  return lo + 65536 * hi

/-- `get_bits`. -/
def getBits (src bitptr count : ℕ) : Except Stop (ℕ × ℕ) := do
  let temp := src + bitptr / 16 * 2
  let bptr := bitptr % 16
  let w ← halfAt source temp
  if count > 16 - bptr then
    if count + bptr - 16 ≤ 16 then
      let w' ← halfAt source (temp + 2)
      return (((w &&& (0xffff >>> bptr)) <<< (count + bptr - 16)) % 2 ^ 32 ||| w' >>> (16 - (count + bptr - 16)),
        (bitptr + count) % 2 ^ 32)
    else throw .shift
  else return (((w <<< bptr) % 2 ^ 16) >>> (16 - count), (bitptr + count) % 2 ^ 32)

/-- `get_loop`; the header is at `header`. -/
def getLoop (src header bitptr : ℕ) : Except Stop (ℕ × ℕ) := do
  let r ← getBits source src bitptr 1
  if r.1 ≠ 0 then
    let v ← byteAt source (header + 22)
    return (v.toNat, r.2)
  else
    let temp ← getBits source src r.2 2
    if temp.1 ≠ 0 then
      let len ← byteAt source (header + 19 + (temp.1 - 1))
      let v ← getBits source src temp.2 len.toNat
      return (v.1 % 2 ^ 16, v.2)
    else
      let v ← byteAt source (header + 23)
      return (v.toNat, temp.2)

/-- `get_count`. -/
def getCount (src header bitptr : ℕ) : Except Stop (ℕ × ℕ) := do
  let temp ← getBits source src bitptr 2
  if temp.1 ≠ 0 then
    let r ← getBits source src temp.2 1
    if r.1 ≠ 0 then
      let len ← byteAt source (header + 16 + (temp.1 - 1))
      let v ← getBits source src r.2 len.toNat
      return (v.1 % 2 ^ 16, v.2)
    else
      let v ← halfAt source (header + 4 + 2 * temp.1)
      return (v, r.2)
  else
    let v ← halfAt source (header + 4)
    return (v, temp.2)

/-- The distance of a copy. -/
def getPos (src header bitptr : ℕ) : Except Stop (ℕ × ℕ) := do
  let r ← getBits source src bitptr 2
  let len ← byteAt source (header + 12 + r.1)
  getBits source src r.2 len.toNat

/-! ### The tree -/

/-- `TreeNode`; the children are indices into the array of nodes, and 0 for `NULL`. -/
structure TreeNode where
  value : Byte
  leaf : Bool
  left : ℕ
  right : ℕ

/-- The bytes of a root and `treeLen` nodes: a `TreeNode` has 20, with three pointers of 4 bytes. -/
def treeSize (treeLen : ℕ) : ℕ := 20 * (treeLen + 1)

/-- Node `i` of the tree. -/
def treeNode (value : Byte) (bit : ℕ) : TreeNode :=
  if bit = 0 then ⟨value, true, 0, 0⟩ else ⟨value, false, 2 * value.toNat + 1, 2 * value.toNat + 2⟩

/-- The loop that fills the nodes from `i` on. -/
def treeNodes (flag : ℕ) : ℕ → ℕ → ℕ → Except Stop (List TreeNode)
  | 0, _, _ => return []
  | n + 1, i, bitptr => do
    let r ← getBits source flag bitptr 1
    let value ← byteAt source (15 + i)
    let rest ← treeNodes flag n (i + 1) r.2
    return treeNode value r.1 :: rest

/-- From a node down to a leaf. -/
def walk (root : List TreeNode) (src : ℕ) : ℕ → ℕ → ℕ → Except Stop (Byte × ℕ)
  | 0, _, _ => throw .outOfFuel
  | fuel + 1, node, bitptr =>
    match root[node]? with
    | none => throw .outside
    | some x =>
      if x.leaf then return (x.value, bitptr)
      else do
        let r ← getBits source src bitptr 1
        walk root src fuel (if r.1 ≠ 0 then x.right else x.left) r.2

/-! ### The destination -/

/-- `Destination`, and how far `dest` is in it. -/
structure Dest where
  buf : List Byte
  pos : ℕ

/-- `*dest++ = b`. -/
def Dest.put (d : Dest) (b : Byte) : Except Stop Dest :=
  if d.pos < d.buf.length then return ⟨d.buf.set d.pos b, d.pos + 1⟩ else throw .outside

/-- `*(dest - pos)`. -/
def Dest.back (d : Dest) (pos : ℕ) : Except Stop Byte :=
  if pos ≤ d.pos then byteAt d.buf (d.pos - pos) else throw .outside

/-- The copy of `count` bytes. -/
def copyBack (pos : ℕ) : ℕ → Dest → Except Stop Dest
  | 0, d => return d
  | count + 1, d => do
    let b ← d.back pos
    let d ← d.put b
    copyBack pos count d

/-! ### Blocks -/

/-- More than the bits of the source. -/
def fuel : ℕ := 8 * source.length + 1

/-- The loop of the literals. -/
def literals (root : List TreeNode) (src : ℕ) : ℕ → ℕ → Dest → Except Stop (ℕ × Dest)
  | 0, bitptr, d => return (bitptr, d)
  | loop + 1, bitptr, d => do
    let r ← walk source root src (fuel source) 0 bitptr
    let d ← d.put r.1
    literals root src loop r.2 d

/-- The loop of the copies. -/
def copies (src header : ℕ) : ℕ → ℕ → Dest → Except Stop (ℕ × Dest)
  | 0, bitptr, d => return (bitptr, d)
  | loop + 1, bitptr, d => do
    let count ← getCount source src header bitptr
    let pos ← getPos source src header count.2
    let d ← copyBack pos.1 count.1 d
    copies src header loop pos.2 d

/-- The rounds of a block. -/
def rounds (root : List TreeNode) (src header : ℕ) : ℕ → ℕ → Dest → Except Stop Dest
  | 0, _, _ => throw .outOfFuel
  | fuel + 1, bitptr, d => do
    let loop ← getLoop source src header bitptr
    if loop.1 = 0 then return d
    else
      let r ← literals source root src loop.1 loop.2 d
      let loop ← getLoop source src header r.1
      if loop.1 = 0 then return r.2
      else
        let r ← copies source src header loop.1 loop.2 r.2
        rounds root src header fuel r.1 r.2

/-- The copy of a stored block. -/
def stored : ℕ → ℕ → Dest → Except Stop (ℕ × Dest)
  | 0, src, d => return (src, d)
  | hul + 1, src, d => do
    let b ← byteAt source src
    let d ← d.put b
    stored hul (src + 1) d

/-- One block; it returns where the next one starts. -/
def block (root : List TreeNode) (header : ℕ) (d : Dest) : Except Stop (ℕ × Dest) := do
  let compressedLength ← halfAt source (header + 2)
  if compressedLength = 0 then
    let hul ← halfAt source header
    stored source hul (header + 4) d
  else
    let d ← rounds source root (header + 24) header (fuel source) 0 d
    return (header + compressedLength, d)

def blocks (root : List TreeNode) : ℕ → ℕ → Dest → Except Stop Dest
  | 0, _, d => return d
  | n + 1, src, d => do
    let r ← block source root src d
    blocks root n r.1 r.2

/-- `Decompress`: what it returns, and the destination. Memory is asked for with `malloc`. -/
def decompress (malloc : ℕ → Option (List Byte)) (destination : List Byte) (destSize : Word) : Except Stop (Word × List Byte) := do
  let signature ← wordAt source 0
  if signature ≠ 0x315f4a59 then return (-1, destination)
  let uncompressedLength ← wordAt source 4
  if uncompressedLength > destSize.toNat then return (-1, destination)
  let huffmanTreeLength ← byteAt source 15
  let treeLen := 2 * huffmanTreeLength.toNat
  if malloc (treeSize treeLen) = none then return (-1, destination)
  let nodes ← treeNodes source (16 + treeLen) treeLen 1 0
  let src := 16 + treeLen + 2 * (if treeLen % 16 ≠ 0 then treeLen / 16 + 1 else treeLen / 16)
  let blockCount ← halfAt source 12
  let d ← blocks source (⟨0, false, 1, 2⟩ :: nodes) blockCount src ⟨destination, 0⟩
  return (BitVec.ofNat 32 uncompressedLength, d.buf)

end Source

/-! ### Bits -/

section Bits

variable {source : List Byte} {src p : ℕ}

theorem halfAt_of_word16 {i w : ℕ} (h : word16 source i = some w) : halfAt source i = .ok w := by
  rw [halfAt, h]

/-- **A field** of up to 16 bits. -/
theorem getBits_of_reads {bs : List Bool} (h : Reads source src p bs) (h1 : 1 ≤ bs.length) (h16 : bs.length ≤ 16)
    (hp : p + bs.length < 2 ^ 32) : getBits source src p bs.length = .ok (ofBits bs, p + bs.length) := by
  have hb : p % 16 < 16 := Nat.mod_lt _ (by norm_num)
  obtain ⟨w, hw, -⟩ := h.word (k := 0) (by omega)
  rw [Nat.add_zero] at hw
  unfold getBits
  dsimp only
  rw [halfAt_of_word16 hw, ok_bind, Nat.mod_eq_of_lt hp]
  have hfirst : ∀ k (hk : k < bs.length), p % 16 + k < 16 → w.testBit (15 - (p % 16 + k)) = bs[k] := by
    intro k hk hlt
    obtain ⟨v, hv, hbit⟩ := h.word hk
    have hsame : (p + k) / 16 = p / 16 ∧ (p + k) % 16 = p % 16 + k := by omega
    rw [hsame.1, hw] at hv
    rw [hsame.2] at hbit
    rwa [Option.some.inj hv]
  by_cases hcross : bs.length > 16 - p % 16
  · rw [if_pos hcross, if_pos (by omega)]
    obtain ⟨w', hw', -⟩ := h.word (k := bs.length - 1) (by omega)
    have hnext : src + (p + (bs.length - 1)) / 16 * 2 = src + p / 16 * 2 + 2 := by omega
    have hsecond : ∀ k (hk : k < bs.length), 16 ≤ p % 16 + k → w'.testBit (31 - (p % 16 + k)) = bs[k] := by
      intro k hk hge
      obtain ⟨v, hv, hbit⟩ := h.word hk
      have hsame : (p + k) / 16 = (p + (bs.length - 1)) / 16 ∧ 15 - (p + k) % 16 = 31 - (p % 16 + k) := by omega
      rw [hsame.1, hw'] at hv
      rw [hsame.2] at hbit
      rwa [Option.some.inj hv]
    rw [hnext] at hw'
    rw [halfAt_of_word16 hw', ok_bind, ofBits_of_words (word16_lt hw') hb (by omega) (by omega) hfirst hsecond]
    rfl
  · rw [if_neg hcross, ofBits_of_word (by omega) fun k hk => hfirst k hk (by omega)]
    rfl

end Bits

/-! ### Every run ends -/

/-- The run ends before the fuel does, and what it returns is good. -/
def Halts {α : Type} (Q : α → Prop) : Except Stop α → Prop
  | .ok a => Q a
  | .error e => e ≠ .outOfFuel

section Halts

variable {α β : Type} {Q Q' : α → Prop} {R : β → Prop} {x : Except Stop α} {f : α → Except Stop β}

theorem Halts.bind (hx : Halts Q x) (hf : ∀ a, Q a → Halts R (f a)) : Halts R (x >>= f) := by
  cases x with
  | ok a => exact hf a hx
  | error e => exact hx

theorem Halts.mono (hx : Halts Q x) (h : ∀ a, Q a → Q' a) : Halts Q' x := by
  cases x with
  | ok a => exact h a hx
  | error e => exact hx

variable {source : List Byte} {root : List TreeNode} {src header p : ℕ} {d : Dest}

theorem byteAt_halts (i : ℕ) : Halts (fun _ => True) (byteAt source i) := by
  unfold byteAt
  split
  · trivial
  · exact nofun

theorem halfAt_halts (i : ℕ) : Halts (fun _ => i + 1 < source.length) (halfAt source i) := by
  unfold halfAt
  split
  · next w h => exact word16_inside h
  · exact nofun

theorem wordAt_halts (i : ℕ) : Halts (fun _ => True) (wordAt source i) :=
  (halfAt_halts i).bind fun _ _ => (halfAt_halts (i + 2)).bind fun _ _ => trivial

theorem put_halts (b : Byte) : Halts (fun _ => True) (d.put b) := by
  unfold Dest.put
  split
  · trivial
  · exact nofun

theorem back_halts (pos : ℕ) : Halts (fun _ => True) (d.back pos) := by
  unfold Dest.back
  split
  · exact byteAt_halts _
  · exact nofun

theorem copyBack_halts (pos : ℕ) : ∀ (count : ℕ) (d : Dest), Halts (fun _ => True) (copyBack pos count d)
  | 0, _ => trivial
  | count + 1, _ => (back_halts pos).bind fun b _ => (put_halts b).bind fun d _ => copyBack_halts pos count d

theorem stored_halts : ∀ (hul src : ℕ) (d : Dest), Halts (fun _ => True) (stored source hul src d)
  | 0, _, _ => trivial
  | hul + 1, src, _ => (byteAt_halts src).bind fun b _ => (put_halts b).bind fun d _ => stored_halts hul (src + 1) d

section Bounded

variable (hsource : source.length < 2 ^ 28)

include hsource

/-- **A field that is read** starts inside of the source, and `bitptr` goes on. -/
theorem getBits_halts {count : ℕ} (hcount : count < 256) :
    Halts (fun r => p < 8 * source.length ∧ r.2 = p + count) (getBits source src p count) := by
  unfold getBits
  refine (halfAt_halts _).bind fun w hw => ?_
  have hp : p < 8 * source.length := by omega
  have hmod : (p + count) % 2 ^ 32 = p + count := Nat.mod_eq_of_lt (by omega)
  split
  · split
    · exact (halfAt_halts _).bind fun w' _ => ⟨hp, hmod⟩
    · exact nofun
  · exact ⟨hp, hmod⟩

theorem getLoop_halts : Halts (fun r => p < 8 * source.length ∧ p < r.2) (getLoop source src header p) := by
  unfold getLoop
  refine (getBits_halts hsource (by norm_num)).bind fun r hr => ?_
  split
  · exact (byteAt_halts _).bind fun v _ => ⟨hr.1, by simp only; omega⟩
  · refine (getBits_halts hsource (by norm_num)).bind fun temp htemp => ?_
    split
    · refine (byteAt_halts _).bind fun len _ => (getBits_halts hsource len.isLt).bind fun v hv => ?_
      exact ⟨hr.1, by simp only; omega⟩
    · exact (byteAt_halts _).bind fun v _ => ⟨hr.1, by simp only; omega⟩

theorem getCount_halts : Halts (fun r => p ≤ r.2) (getCount source src header p) := by
  unfold getCount
  refine (getBits_halts hsource (by norm_num)).bind fun temp htemp => ?_
  split
  · refine (getBits_halts hsource (by norm_num)).bind fun r hr => ?_
    split
    · refine (byteAt_halts _).bind fun len _ => (getBits_halts hsource len.isLt).bind fun v hv => ?_
      show p ≤ v.2
      omega
    · refine (halfAt_halts _).bind fun v _ => ?_
      show p ≤ r.2
      omega
  · refine (halfAt_halts _).bind fun v _ => ?_
    show p ≤ temp.2
    omega

theorem getPos_halts : Halts (fun r => p ≤ r.2) (getPos source src header p) := by
  refine (getBits_halts hsource (by norm_num)).bind fun r hr => (byteAt_halts _).bind fun len _ => ?_
  exact (getBits_halts hsource len.isLt).mono fun v hv => by omega

/-- A walk reads one bit for each node, and there are not more bits than fuel. -/
theorem walk_halts : ∀ (fuel node p : ℕ), 1 ≤ fuel → 8 * source.length < fuel + p →
    Halts (fun r => p ≤ r.2) (walk source root src fuel node p)
  | 0, _, _, h, _ => absurd h (by norm_num)
  | fuel + 1, node, p, _, hfuel => by
    unfold walk
    split
    · exact nofun
    · next x _ =>
      split
      · exact le_rfl
      · refine (getBits_halts hsource (by norm_num)).bind fun r hr => ?_
        exact (walk_halts fuel _ r.2 (by omega) (by omega)).mono fun v hv => by omega

theorem literals_halts : ∀ (loop p : ℕ) (d : Dest), Halts (fun r => p ≤ r.1) (literals source root src loop p d)
  | 0, _, _ => le_rfl
  | loop + 1, p, d => by
    refine (walk_halts hsource (fuel source) 0 p (Nat.succ_pos _) (by unfold fuel; omega)).bind fun r hr => ?_
    refine (put_halts r.1).bind fun d _ => ?_
    exact (literals_halts loop r.2 d).mono fun v hv => hr.trans hv

theorem copies_halts : ∀ (loop p : ℕ) (d : Dest), Halts (fun r => p ≤ r.1) (copies source src header loop p d)
  | 0, _, _ => le_rfl
  | loop + 1, p, d => by
    refine (getCount_halts hsource).bind fun count hcount => (getPos_halts hsource).bind fun pos hpos => ?_
    refine (copyBack_halts _ _ d).bind fun d _ => ?_
    exact (copies_halts loop pos.2 d).mono fun v hv => (hcount.trans hpos).trans hv

/-- Each round reads a bit. -/
theorem rounds_halts : ∀ (fuel p : ℕ) (d : Dest), 1 ≤ fuel → 8 * source.length < fuel + p →
    Halts (fun _ => True) (rounds source root src header fuel p d)
  | 0, _, _, h, _ => absurd h (by norm_num)
  | fuel + 1, p, d, _, hfuel => by
    unfold rounds
    refine (getLoop_halts hsource).bind fun loop hloop => ?_
    split
    · trivial
    · refine (literals_halts hsource _ _ d).bind fun r hr => (getLoop_halts hsource).bind fun loop' hloop' => ?_
      split
      · trivial
      · refine (copies_halts hsource _ _ r.2).bind fun r' hr' => ?_
        exact rounds_halts fuel r'.1 r'.2 (by omega) (by omega)

theorem block_halts (d : Dest) : Halts (fun _ => True) (block source root header d) := by
  refine (halfAt_halts _).bind fun length _ => ?_
  split
  · exact (halfAt_halts _).bind fun hul _ => stored_halts hul _ d
  · exact (rounds_halts hsource (fuel source) 0 d (Nat.succ_pos _) (by unfold fuel; omega)).bind fun _ _ => trivial

theorem blocks_halts : ∀ (n src : ℕ) (d : Dest), Halts (fun _ => True) (blocks source root n src d)
  | 0, _, _ => trivial
  | n + 1, _, d => (block_halts hsource d).bind fun r _ => blocks_halts n r.1 r.2

theorem treeNodes_halts (flag : ℕ) : ∀ n i p : ℕ, Halts (fun _ => True) (treeNodes source flag n i p)
  | 0, _, _ => trivial
  | n + 1, i, _ => (getBits_halts hsource (by norm_num)).bind fun r _ => (byteAt_halts _).bind fun _ _ =>
      (treeNodes_halts flag n (i + 1) r.2).bind fun _ _ => trivial

/-- **`Decompress` ends**, on every source and into every destination, whether there is memory or not: with a
value, or in an access or a shift that is undefined. -/
theorem decompress_halts (malloc : ℕ → Option (List Byte)) (destination : List Byte) (destSize : Word) :
    decompress source malloc destination destSize ≠ .error .outOfFuel := by
  have hhalts : Halts (fun _ => True) (decompress source malloc destination destSize) := by
    refine (wordAt_halts 0).bind fun signature _ => ?_
    split
    · trivial
    refine (wordAt_halts 4).bind fun length _ => ?_
    split
    · trivial
    refine (byteAt_halts 15).bind fun treeLength _ => ?_
    dsimp only
    split
    · trivial
    refine (treeNodes_halts hsource _ _ _ _).bind fun nodes _ => ?_
    exact (halfAt_halts 12).bind fun count _ => (blocks_halts hsource _ _ _).bind fun d _ => trivial
  intro h
  rw [h] at hhalts
  exact hhalts rfl

end Bounded

theorem decompress_halts_ones :
    decompress ([0x59, 0x4a, 0x5f, 0x31] ++ List.replicate 600 0xff) (fun k => some (List.replicate k 0)) (List.replicate 9 0)
      0xffffffff ≠ .error .outOfFuel :=
  decompress_halts (by rw [List.length_append, List.length_replicate]; decide) _ _ _

end Halts

end Yj1

end Nemu
