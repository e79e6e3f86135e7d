/-
# The format of YJ_1

What the files of `yj1.c` are: a syntax of files with the codes that were chosen
for each number, the bytes of a file, and its contents. Whatever codes were
chosen, the tables and the layout of the tree, `Decompress` puts the contents of a
file into the destination.

Key definitions: `Tables`, `LoopCode`, `CountCode`, `HTree`, `Lays`, `Body`, `Block`, `File`.
Key theorems: `walk_spec`, `rounds_spec`, `block_spec`, `decompress_file`.
-/
import Mathlib.Data.Fintype.Basic
import Mathlib.Tactic.FinCases
import Nemu.Game.Yj1

namespace Nemu

namespace Yj1

open Bytes BitStream

/-! ### Syntax -/

/-- The tables of a block's header. -/
structure Tables where
  repeatTable : Fin 4 → BitVec 16
  offsetCodeLength : Fin 4 → Byte
  repeatCodeLength : Fin 3 → Byte
  codeCountCodeLength : Fin 3 → Byte
  codeCount : Fin 2 → Byte

/-- A number of `n` bits that is written out. -/
def Direct (n : Byte) (v : ℕ) : Prop := 1 ≤ n.toNat ∧ n.toNat ≤ 16 ∧ v < 2 ^ n.toNat

/-- How many literals or copies there are: an entry of the table, or written out. -/
inductive LoopCode where
  | table (k : Fin 2)
  | direct (k : Fin 3) (v : ℕ)

/-- How many bytes are copied. -/
inductive CountCode where
  | table (k : Fin 4)
  | direct (k : Fin 3) (v : ℕ)

/-- A copy, from `pos` bytes before. -/
structure Copy where
  count : CountCode
  k : Fin 4
  pos : ℕ

section Codes

variable (t : Tables)

def LoopCode.bits : LoopCode → List Bool
  | .table k => if k = 0 then [true] else false :: toBits 2 0
  | .direct k v => false :: (toBits 2 (k + 1) ++ toBits (t.codeCountCodeLength k).toNat v)

def LoopCode.value : LoopCode → ℕ
  | .table k => (t.codeCount k).toNat
  | .direct _ v => v

def LoopCode.Ok : LoopCode → Prop
  | .table _ => True
  | .direct k v => Direct (t.codeCountCodeLength k) v

def CountCode.bits : CountCode → List Bool
  | .table k => if k = 0 then toBits 2 0 else toBits 2 k ++ [false]
  | .direct k v => toBits 2 (k + 1) ++ true :: toBits (t.repeatCodeLength k).toNat v

def CountCode.value : CountCode → ℕ
  | .table k => (t.repeatTable k).toNat
  | .direct _ v => v

def CountCode.Ok : CountCode → Prop
  | .table _ => True
  | .direct k v => Direct (t.repeatCodeLength k) v

def Copy.bits (c : Copy) : List Bool := c.count.bits t ++ (toBits 2 c.k ++ toBits (t.offsetCodeLength c.k).toNat c.pos)

end Codes

/-- The last `pos` bytes again, `count` bytes of them; they may overlap. -/
def copyOut (pos : ℕ) : ℕ → List Byte → List Byte
  | 0, out => out
  | count + 1, out => copyOut pos count (out ++ [out.getD (out.length - pos) 0])

def Copy.run (t : Tables) (c : Copy) (out : List Byte) : List Byte := copyOut c.pos (c.count.value t) out

/-- The Huffman tree of the literals. -/
inductive HTree where
  | leaf (b : Byte)
  | node (left right : HTree)

/-- The literal at the end of a path. -/
def HTree.find : HTree → List Bool → Option Byte
  | .leaf b, [] => some b
  | .node left _, false :: path => left.find path
  | .node _ right, true :: path => right.find path
  | _, _ => none

/-- A literal with its code. -/
structure Literal where
  path : List Bool
  byte : Byte

/-- The rounds of a block, until a number is 0. -/
inductive Body where
  | stop (code : LoopCode)
  | stopAfter (code : LoopCode) (literals : List Literal) (code' : LoopCode)
  | round (code : LoopCode) (literals : List Literal) (code' : LoopCode) (copies : List Copy) (rest : Body)

section Bodies

variable (t : Tables) (tree : HTree)

def Body.bits : Body → List Bool
  | .stop code => code.bits t
  | .stopAfter code literals code' => code.bits t ++ (literals.flatMap Literal.path ++ code'.bits t)
  | .round code literals code' copies rest =>
    code.bits t ++ (literals.flatMap Literal.path ++ (code'.bits t ++ (copies.flatMap (Copy.bits t) ++ rest.bits)))

/-- What a block adds to the output. -/
def Body.run : Body → List Byte → List Byte
  | .stop _, out => out
  | .stopAfter _ literals _, out => out ++ literals.map Literal.byte
  | .round _ literals _ copies rest, out =>
    rest.run (copies.foldl (fun out c => c.run t out) (out ++ literals.map Literal.byte))

def Copy.Ok (c : Copy) (out : List Byte) : Prop :=
  c.count.Ok t ∧ Direct (t.offsetCodeLength c.k) c.pos ∧ 1 ≤ c.pos ∧ c.pos ≤ out.length

/-- No copy starts before the output. -/
def CopiesOk : List Copy → List Byte → Prop
  | [], _ => True
  | c :: cs, out => c.Ok t out ∧ CopiesOk cs (c.run t out)

def LiteralsOk (code : LoopCode) (literals : List Literal) : Prop :=
  code.Ok t ∧ code.value t = literals.length ∧ literals ≠ [] ∧ ∀ l ∈ literals, tree.find l.path = some l.byte

def Body.Ok : Body → List Byte → Prop
  | .stop code, _ => code.Ok t ∧ code.value t = 0
  | .stopAfter code literals code', _ => LiteralsOk t tree code literals ∧ code'.Ok t ∧ code'.value t = 0
  | .round code literals code' copies rest, out =>
    LiteralsOk t tree code literals ∧ (code'.Ok t ∧ code'.value t = copies.length ∧ copies ≠ []) ∧
      CopiesOk t copies (out ++ literals.map Literal.byte) ∧
      rest.Ok (copies.foldl (fun out c => c.run t out) (out ++ literals.map Literal.byte))

end Bodies

/-- A block is stored, or it is the stream of a body. -/
inductive Block where
  | stored (bytes : List Byte)
  | packed (uncompressedLength : ℕ) (t : Tables) (body : Body) (stream : List Byte)

def half (v : ℕ) : List Byte := [BitVec.ofNat 8 v, BitVec.ofNat 8 (v / 256)]

def Tables.bytes (t : Tables) : List Byte :=
  half (t.repeatTable 0).toNat ++ half (t.repeatTable 1).toNat ++ half (t.repeatTable 2).toNat ++ half (t.repeatTable 3).toNat ++
    [t.offsetCodeLength 0, t.offsetCodeLength 1, t.offsetCodeLength 2, t.offsetCodeLength 3,
      t.repeatCodeLength 0, t.repeatCodeLength 1, t.repeatCodeLength 2,
      t.codeCountCodeLength 0, t.codeCountCodeLength 1, t.codeCountCodeLength 2, t.codeCount 0, t.codeCount 1]

def Block.bytes : Block → List Byte
  | .stored bytes => half bytes.length ++ half 0 ++ bytes
  | .packed length t _ stream => half length ++ half (24 + stream.length) ++ t.bytes ++ stream

def Block.run : Block → List Byte → List Byte
  | .stored bytes, out => out ++ bytes
  | .packed _ t body _, out => body.run t out

def Block.Ok (tree : HTree) : Block → List Byte → Prop
  | .stored bytes, _ => bytes.length < 65536
  | .packed _ t body stream, out => body.Ok t tree out ∧ Reads stream 0 0 (body.bits t) ∧ 24 + stream.length < 65536

def BlocksOk (tree : HTree) : List Block → List Byte → Prop
  | [], _ => True
  | b :: bs, out => b.Ok tree out ∧ BlocksOk tree bs (b.run out)

/-- The array has the tree at node `i`: the children of an inner node with the value `v` are
`2 v + 1` and `2 v + 2`. -/
def Lays (root : List TreeNode) : ℕ → HTree → Prop
  | i, .leaf b => root[i]? = some ⟨b, true, 0, 0⟩
  | i, .node left right => ∃ v : Byte, root[i]? = some ⟨v, false, 2 * v.toNat + 1, 2 * v.toNat + 2⟩ ∧
      Lays root (2 * v.toNat + 1) left ∧ Lays root (2 * v.toNat + 2) right

/-- A file. The nodes of the tree, below its root, have their value and whether they are a leaf. -/
structure File where
  compressedLength : ℕ
  unknown : Byte
  tree : HTree
  nodes : List (Byte × Bool)
  flags : List Byte
  blocks : List Block

namespace File

variable (f : File)

def contents : List Byte := f.blocks.foldl (fun out b => b.run out) []

/-- The array of nodes. -/
def root : List TreeNode := ⟨0, false, 1, 2⟩ :: f.nodes.map fun n => treeNode n.1 (!n.2).toNat

/-- The header. -/
def header : List Byte :=
  [0x59, 0x4a, 0x5f, 0x31] ++ (half f.contents.length ++ half (f.contents.length / 65536)) ++
    (half f.compressedLength ++ half (f.compressedLength / 65536)) ++ half f.blocks.length ++
    [f.unknown, BitVec.ofNat 8 (f.nodes.length / 2)]

def bytes : List Byte := f.header ++ f.nodes.map Prod.fst ++ f.flags ++ f.blocks.flatMap Block.bytes

structure Ok : Prop where
  even : f.nodes.length % 2 = 0
  nodes : f.nodes.length < 512
  lays : Lays f.root 0 f.tree
  flags : f.flags.length = (f.nodes.length + 15) / 16 * 2
  leaves : Reads f.flags 0 0 (f.nodes.map fun n => !n.2)
  count : f.blocks.length < 65536
  size : f.contents.length < 2 ^ 32
  blocks : BlocksOk f.tree f.blocks []

end File

/-! ### Codes -/

section CodeSpecs

variable {source : List Byte} {src header p : ℕ} {t : Tables}

/-- The tables are in the header at `header`. -/
structure HeaderAt (source : List Byte) (header : ℕ) (t : Tables) : Prop where
  repeatTable : ∀ k : Fin 4, halfAt source (header + 4 + 2 * k) = .ok (t.repeatTable k).toNat
  offsetCodeLength : ∀ k : Fin 4, byteAt source (header + 12 + k) = .ok (t.offsetCodeLength k)
  repeatCodeLength : ∀ k : Fin 3, byteAt source (header + 16 + k) = .ok (t.repeatCodeLength k)
  codeCountCodeLength : ∀ k : Fin 3, byteAt source (header + 19 + k) = .ok (t.codeCountCodeLength k)
  codeCount : ∀ k : Fin 2, byteAt source (header + 22 + k) = .ok (t.codeCount k)

theorem getBits_toBits {n v : ℕ} (h : Reads source src p (toBits n v)) (h1 : 1 ≤ n) (h16 : n ≤ 16) (hv : v < 2 ^ n)
    (hp : p + n < 2 ^ 32) : getBits source src p n = .ok (v, p + n) := by
  have hrun := getBits_of_reads h (by rwa [length_toBits]) (by rwa [length_toBits]) (by rwa [length_toBits])
  rwa [length_toBits, ofBits_toBits hv] at hrun

theorem getBits_direct {n : Byte} {v : ℕ} (hd : Direct n v) (h : Reads source src p (toBits n.toNat v))
    (hp : p + n.toNat < 2 ^ 32) : getBits source src p n.toNat = .ok (v, p + n.toNat) :=
  getBits_toBits h hd.1 hd.2.1 hd.2.2 hp

theorem getBits_bit {b : Bool} {bs : List Bool} (h : Reads source src p (b :: bs)) (hp : p + 1 < 2 ^ 32) :
    getBits source src p 1 = .ok (b.toNat, p + 1) := by
  have hrun := getBits_of_reads h.head le_rfl (by norm_num) hp
  rwa [show ofBits [b] = b.toNat by simp [ofBits]] at hrun

theorem Direct.lt {n : Byte} {v : ℕ} (h : Direct n v) : v < 2 ^ 16 :=
  h.2.2.trans_le (Nat.pow_le_pow_right (by norm_num) h.2.1)

/-- **`get_loop`.** -/
theorem getLoop_spec {code : LoopCode} (hh : HeaderAt source header t) (hc : code.Ok t) (h : Reads source src p (code.bits t))
    (hp : p + (code.bits t).length < 2 ^ 32) :
    getLoop source src header p = .ok (code.value t, p + (code.bits t).length) := by
  unfold getLoop
  cases code with
  | table k =>
    by_cases hk : k = 0
    · subst hk
      have hone : getBits source src p 1 = .ok (1, p + 1) := getBits_bit (b := true) h hp
      rw [hone, ok_bind, if_pos one_ne_zero, show header + 22 = header + 22 + (0 : Fin 2).val from rfl, hh.codeCount]
      rfl
    · obtain rfl : k = 1 := by omega
      have hbits : LoopCode.bits t (.table 1) = false :: toBits 2 0 := rfl
      rw [hbits] at h hp ⊢
      have hzero : getBits source src p 1 = .ok (0, p + 1) := getBits_bit h (by simp at hp; omega)
      have htwo : getBits source src (p + 1) 2 = .ok (0, p + 1 + 2) :=
        getBits_toBits h.tail (by norm_num) (by norm_num) (by norm_num) (by simpa using hp)
      rw [hzero, ok_bind, if_neg (by simp)]
      dsimp only
      rw [htwo, ok_bind, if_neg (by simp), show header + 23 = header + 22 + (1 : Fin 2).val from rfl, hh.codeCount]
      rfl
  | direct k v =>
    have hk := k.isLt
    have hbits : LoopCode.bits t (.direct k v) = [false] ++ (toBits 2 (k + 1) ++ toBits (t.codeCountCodeLength k).toNat v) := rfl
    rw [hbits] at h hp ⊢
    simp only [List.length_append, List.length_singleton, length_toBits] at hp ⊢
    have hzero : getBits source src p 1 = .ok (0, p + 1) := getBits_bit h (by omega)
    have htwo : getBits source src (p + 1) 2 = .ok (k.val + 1, p + 1 + 2) :=
      getBits_toBits (h.right.left) (by norm_num) (by norm_num) (by omega) (by omega)
    have hvalue : getBits source src (p + 1 + 2) (t.codeCountCodeLength k).toNat = .ok (v, p + 1 + 2 + _) :=
      getBits_direct hc (by simpa using h.right.right) (by omega)
    rw [hzero, ok_bind, if_neg (by simp)]
    dsimp only
    rw [htwo, ok_bind, if_pos (by simp)]
    dsimp only
    rw [Nat.add_sub_cancel, hh.codeCountCodeLength k, ok_bind, hvalue, ok_bind]
    dsimp only
    rw [Nat.mod_eq_of_lt hc.lt, Nat.add_assoc, Nat.add_assoc]
    rfl

/-- **`get_count`.** -/
theorem getCount_spec {code : CountCode} (hh : HeaderAt source header t) (hc : code.Ok t) (h : Reads source src p (code.bits t))
    (hp : p + (code.bits t).length < 2 ^ 32) :
    getCount source src header p = .ok (code.value t, p + (code.bits t).length) := by
  unfold getCount
  cases code with
  | table k =>
    have hk := k.isLt
    by_cases h0 : k = 0
    · subst h0
      have htwo : getBits source src p 2 = .ok (0, p + 2) :=
        getBits_toBits h (by norm_num) (by norm_num) (by norm_num) hp
      rw [htwo, ok_bind, if_neg (by simp), show header + 4 = header + 4 + 2 * (0 : Fin 4).val from rfl, hh.repeatTable]
      rfl
    · have hbits : CountCode.bits t (.table k) = toBits 2 k ++ [false] := if_neg h0
      rw [hbits] at h hp ⊢
      simp only [List.length_append, List.length_singleton, length_toBits] at hp ⊢
      have htwo : getBits source src p 2 = .ok (k.val, p + 2) :=
        getBits_toBits h.left (by norm_num) (by norm_num) (by omega) (by omega)
      have hzero : getBits source src (p + 2) 1 = .ok (0, p + 2 + 1) :=
        getBits_bit (b := false) (by simpa using h.right) (by omega)
      have hne : k.val ≠ 0 := fun hz => h0 (Fin.ext hz)
      rw [htwo, ok_bind, if_pos hne]
      dsimp only
      rw [hzero, ok_bind, if_neg (by simp)]
      dsimp only
      rw [hh.repeatTable]
      rfl
  | direct k v =>
    have hk := k.isLt
    have hbits : CountCode.bits t (.direct k v) = toBits 2 (k + 1) ++ ([true] ++ toBits (t.repeatCodeLength k).toNat v) := rfl
    rw [hbits] at h hp ⊢
    simp only [List.length_append, List.length_singleton, length_toBits] at hp ⊢
    have htwo : getBits source src p 2 = .ok (k.val + 1, p + 2) :=
      getBits_toBits h.left (by norm_num) (by norm_num) (by omega) (by omega)
    have hrest : Reads source src (p + 2) ([true] ++ toBits (t.repeatCodeLength k).toNat v) := by simpa using h.right
    have hone : getBits source src (p + 2) 1 = .ok (1, p + 2 + 1) := getBits_bit (b := true) hrest (by omega)
    have hvalue : getBits source src (p + 2 + 1) (t.repeatCodeLength k).toNat = .ok (v, p + 2 + 1 + _) :=
      getBits_direct hc hrest.right (by omega)
    rw [htwo, ok_bind, if_pos (by simp)]
    dsimp only
    rw [hone, ok_bind, if_pos one_ne_zero]
    dsimp only
    rw [Nat.add_sub_cancel, hh.repeatCodeLength k, ok_bind, hvalue, ok_bind]
    dsimp only
    rw [Nat.mod_eq_of_lt hc.lt, Nat.add_assoc, Nat.add_assoc]
    rfl

/-- The distance. -/
theorem getPos_spec {k : Fin 4} {pos : ℕ} (hh : HeaderAt source header t) (hc : Direct (t.offsetCodeLength k) pos)
    (h : Reads source src p (toBits 2 k ++ toBits (t.offsetCodeLength k).toNat pos))
    (hp : p + (2 + (t.offsetCodeLength k).toNat) < 2 ^ 32) :
    getPos source src header p = .ok (pos, p + (2 + (t.offsetCodeLength k).toNat)) := by
  have hk := k.isLt
  have htwo : getBits source src p 2 = .ok (k.val, p + 2) :=
    getBits_toBits h.left (by norm_num) (by norm_num) (by omega) (by omega)
  have hvalue : getBits source src (p + 2) (t.offsetCodeLength k).toNat = .ok (pos, p + 2 + _) :=
    getBits_direct hc (by simpa using h.right) (by omega)
  unfold getPos
  rw [htwo, ok_bind]
  dsimp only
  rw [hh.offsetCodeLength k, ok_bind, hvalue, Nat.add_assoc]

/-- **A walk** down the tree, by induction on the path. -/
theorem walk_spec {root : List TreeNode} {b : Byte} : ∀ {path : List Bool} {tree : HTree} {i p fuel : ℕ}, Lays root i tree →
    tree.find path = some b → Reads source src p path → p + path.length < 2 ^ 32 → path.length < fuel →
    walk source root src fuel i p = .ok (b, p + path.length)
  | _, _, _, _, 0, _, _, _, _, hfuel => absurd hfuel (Nat.not_lt_zero _)
  | [], .leaf _, _, _, fuel + 1, hl, hf, _, _, _ => by
    obtain rfl := Option.some.inj hf
    rw [walk, show root[_]? = some _ from hl]
    rfl
  | [], .node _ _, _, _, _ + 1, _, hf, _, _, _ => nomatch hf
  | _ :: _, .leaf _, _, _, _ + 1, _, hf, _, _, _ => nomatch hf
  | bit :: path, .node left right, i, p, fuel + 1, hl, hf, hr, hp, hfuel => by
    obtain ⟨v, hnode, hleft, hright⟩ := hl
    rw [List.length_cons] at hp hfuel ⊢
    have hone : getBits source src p 1 = .ok (bit.toNat, p + 1) := getBits_bit hr (by omega)
    have hrest : Reads source src (p + 1) path := hr.tail
    rw [walk, hnode]
    dsimp only
    rw [if_neg Bool.false_ne_true, hone, ok_bind]
    dsimp only
    have hadd : p + (path.length + 1) = p + 1 + path.length := by omega
    cases bit with
    | false => rw [if_neg (by simp), walk_spec hleft hf hrest (by omega) (by omega), hadd]
    | true => rw [if_pos (by simp), walk_spec hright hf hrest (by omega) (by omega), hadd]

end CodeSpecs

/-! ### Output -/

section Output

variable {old out : List Byte} {d : Dest}

/-- What is written so far is `out`; behind it the destination is as it was. -/
def Holds (old out : List Byte) (d : Dest) : Prop := d = ⟨out ++ old.drop out.length, out.length⟩

theorem Holds.put (h : Holds old out d) (hlen : out.length < old.length) (b : Byte) :
    ∃ d', d.put b = .ok d' ∧ Holds old (out ++ [b]) d' := by
  subst h
  refine ⟨_, if_pos (by simp; omega), ?_⟩
  unfold Holds
  have hset : (out ++ old.drop out.length).set out.length b = out ++ [b] ++ old.drop (out.length + 1) := by
    rw [List.set_append_right _ _ le_rfl, Nat.sub_self, List.drop_eq_getElem_cons hlen, List.set_cons_zero, List.append_assoc,
      List.singleton_append]
  rw [hset, List.length_append, List.length_singleton]

theorem Holds.back (h : Holds old out d) {pos : ℕ} (h1 : 1 ≤ pos) (hpos : pos ≤ out.length) :
    d.back pos = .ok (out.getD (out.length - pos) 0) := by
  subst h
  unfold Dest.back byteAt
  dsimp only
  rw [if_pos hpos, List.getElem?_append_left (by omega), List.getElem?_eq_getElem (by omega),
    List.getD_eq_getElem _ _ (by omega)]

@[simp] theorem length_copyOut (pos : ℕ) : ∀ count out, (copyOut pos count out).length = out.length + count
  | 0, _ => rfl
  | count + 1, out => by
    rw [copyOut, length_copyOut pos count, List.length_append, List.length_singleton]
    omega

/-- **A copy**, byte after byte. -/
theorem copyBack_spec {pos : ℕ} (h1 : 1 ≤ pos) : ∀ (count : ℕ) {out : List Byte} {d : Dest}, Holds old out d →
    pos ≤ out.length → out.length + count ≤ old.length →
    ∃ d', copyBack pos count d = .ok d' ∧ Holds old (copyOut pos count out) d'
  | 0, _, d, h, _, _ => ⟨d, rfl, h⟩
  | count + 1, out, d, h, hpos, hlen => by
    obtain ⟨d₁, hput, h₁⟩ := h.put (by omega) (out.getD (out.length - pos) 0)
    obtain ⟨d₂, hcopy, h₂⟩ := copyBack_spec h1 count h₁ (by rw [List.length_append]; omega)
      (by rw [List.length_append, List.length_singleton]; omega)
    refine ⟨d₂, ?_, h₂⟩
    rw [copyBack, h.back h1 hpos, ok_bind, hput, ok_bind, hcopy]

end Output

/-! ### Blocks -/

section Blocks

variable {source old out : List Byte} {root : List TreeNode} {tree : HTree} {t : Tables} {src header p : ℕ} {d : Dest}

/-- **The literals** of a round. -/
theorem literals_spec (hl : Lays root 0 tree) : ∀ {ls : List Literal} {p : ℕ} {out : List Byte} {d : Dest},
    (∀ l ∈ ls, tree.find l.path = some l.byte) → Reads source src p (ls.flatMap Literal.path) →
    p + (ls.flatMap Literal.path).length < 2 ^ 32 → Holds old out d → out.length + ls.length ≤ old.length →
    ∃ d', literals source root src ls.length p d = .ok (p + (ls.flatMap Literal.path).length, d') ∧
      Holds old (out ++ ls.map Literal.byte) d'
  | [], _, out, d, _, _, _, h, _ => ⟨d, rfl, by rwa [List.map_nil, List.append_nil]⟩
  | l :: ls, p, out, d, hf, hr, hp, h, hlen => by
    rw [List.flatMap_cons] at hr hp ⊢
    rw [List.length_append] at hp
    rw [List.length_cons] at hlen
    have hfuel : l.path.length < fuel source := Nat.lt_succ_of_le hr.left.length_le
    have hwalk := walk_spec (p := p) hl (hf l List.mem_cons_self) hr.left (by omega) hfuel
    obtain ⟨d₁, hput, h₁⟩ := h.put (by omega) l.byte
    obtain ⟨d₂, hrest, h₂⟩ := literals_spec hl (fun l hl => hf l (List.mem_cons_of_mem _ hl)) hr.right (by omega) h₁
      (by rw [List.length_append, List.length_singleton]; omega)
    refine ⟨d₂, ?_, by rwa [List.map_cons, ← List.singleton_append, ← List.append_assoc]⟩
    rw [List.length_cons, literals, hwalk, ok_bind, hput, ok_bind, hrest, List.length_append, Nat.add_assoc]

@[simp] theorem length_run (t : Tables) (c : Copy) (out : List Byte) :
    (c.run t out).length = out.length + c.count.value t := length_copyOut _ _ _

theorem length_le_copies (t : Tables) : ∀ (cs : List Copy) (out : List Byte),
    out.length ≤ (cs.foldl (fun out c => c.run t out) out).length
  | [], _ => le_rfl
  | c :: cs, out => by
    have ih := length_le_copies t cs (c.run t out)
    rw [length_run] at ih
    exact (Nat.le_add_right _ _).trans ih

/-- **The copies** of a round. -/
theorem copies_spec (hh : HeaderAt source header t) : ∀ {cs : List Copy} {p : ℕ} {out : List Byte} {d : Dest},
    CopiesOk t cs out → Reads source src p (cs.flatMap (Copy.bits t)) → p + (cs.flatMap (Copy.bits t)).length < 2 ^ 32 →
    Holds old out d → (cs.foldl (fun out c => c.run t out) out).length ≤ old.length →
    ∃ d', copies source src header cs.length p d = .ok (p + (cs.flatMap (Copy.bits t)).length, d') ∧
      Holds old (cs.foldl (fun out c => c.run t out) out) d'
  | [], _, _, d, _, _, _, h, _ => ⟨d, rfl, h⟩
  | c :: cs, p, out, d, ⟨⟨hcount, hdirect, h1, hpos⟩, hok⟩, hr, hp, h, hlen => by
    rw [List.flatMap_cons] at hr hp ⊢
    rw [List.foldl_cons] at hlen ⊢
    have hroom := (length_le_copies t cs (c.run t out)).trans hlen
    rw [length_run] at hroom
    have hbits : (c.bits t).length = (c.count.bits t).length + (2 + (t.offsetCodeLength c.k).toNat) := by simp [Copy.bits]
    rw [List.length_append] at hp
    have hget := getCount_spec (p := p) hh hcount hr.left.left (by omega)
    have hdist := getPos_spec (p := p + (c.count.bits t).length) hh hdirect hr.left.right (by omega)
    obtain ⟨d₁, hcopy, h₁⟩ := copyBack_spec h1 (c.count.value t) h hpos hroom
    obtain ⟨d₂, hrest, h₂⟩ := copies_spec hh hok hr.right (by omega) h₁ hlen
    refine ⟨d₂, ?_, h₂⟩
    rw [List.length_cons, copies, hget, ok_bind]
    dsimp only
    rw [hdist, ok_bind]
    dsimp only
    rw [hcopy, ok_bind, Nat.add_assoc p, ← hbits, hrest, List.length_append, Nat.add_assoc]

theorem length_le_run (t : Tables) : ∀ (body : Body) (out : List Byte), out.length ≤ (body.run t out).length
  | .stop _, _ => le_rfl
  | .stopAfter _ _ _, out => by rw [Body.run, List.length_append]; exact Nat.le_add_right _ _
  | .round _ literals _ copies rest, out => by
    calc out.length ≤ (out ++ literals.map Literal.byte).length := by rw [List.length_append]; exact Nat.le_add_right _ _
      _ ≤ (copies.foldl (fun out c => c.run t out) (out ++ literals.map Literal.byte)).length := length_le_copies t _ _
      _ ≤ _ := length_le_run t rest _

theorem one_le_bits (t : Tables) (code : LoopCode) : 1 ≤ (code.bits t).length := by
  cases code with
  | table k => by_cases hk : k = 0 <;> simp [LoopCode.bits, hk]
  | direct k v => simp [LoopCode.bits]

/-- **The rounds** of a block, by induction on them. -/
theorem rounds_spec (hl : Lays root 0 tree) (hh : HeaderAt source header t) :
    ∀ {body : Body} (fuel : ℕ) {p : ℕ} {out : List Byte} {d : Dest}, body.Ok t tree out → Reads source src p (body.bits t) →
    p + (body.bits t).length < 2 ^ 32 → (body.bits t).length ≤ fuel → Holds old out d →
    (body.run t out).length ≤ old.length →
    ∃ d', rounds source root src header fuel p d = .ok d' ∧ Holds old (body.run t out) d'
  | .stop code, fuel, p, out, d, ⟨hok, hzero⟩, hr, hp, hfuel, h, _ => by
    have hone := one_le_bits t code
    obtain ⟨fuel, rfl⟩ : ∃ k, fuel = k + 1 := ⟨fuel - 1, by rw [Body.bits] at hfuel; omega⟩
    refine ⟨d, ?_, h⟩
    rw [rounds, getLoop_spec hh hok hr hp, ok_bind]
    exact if_pos hzero
  | .stopAfter code ls code', fuel, p, out, d, ⟨⟨hok, hcount, hne, hf⟩, hok', hzero⟩, hr, hp, hfuel, h, hlen => by
    have hone := one_le_bits t code
    rw [Body.bits] at hr hp hfuel
    simp only [List.length_append] at hp hfuel
    rw [Body.run, List.length_append, List.length_map] at hlen
    obtain ⟨fuel, rfl⟩ : ∃ k, fuel = k + 1 := ⟨fuel - 1, by omega⟩
    obtain ⟨d₁, hlits, h₁⟩ := literals_spec hl hf hr.right.left (by omega) h hlen
    have hnz : code.value t ≠ 0 := by
      rw [hcount]
      exact (List.length_pos_iff.mpr hne).ne'
    refine ⟨d₁, ?_, h₁⟩
    rw [rounds, getLoop_spec hh hok hr.left (by omega), ok_bind]
    dsimp only
    rw [if_neg hnz, hcount, hlits, ok_bind]
    dsimp only
    rw [getLoop_spec hh hok' hr.right.right (by omega), ok_bind]
    exact if_pos hzero
  | .round code ls code' cs rest, fuel, p, out, d, ⟨⟨hok, hcount, hne, hf⟩, ⟨hok', hcount', hne'⟩, hcs, hrest⟩, hr, hp, hfuel, h, hlen => by
    have hone := one_le_bits t code
    rw [Body.bits] at hr hp hfuel
    simp only [List.length_append] at hp hfuel
    rw [Body.run] at hlen ⊢
    have hroom := (length_le_run t rest _).trans hlen
    have hroom' := (length_le_copies t cs _).trans hroom
    rw [List.length_append, List.length_map] at hroom'
    obtain ⟨fuel, rfl⟩ : ∃ k, fuel = k + 1 := ⟨fuel - 1, by omega⟩
    obtain ⟨d₁, hlits, h₁⟩ := literals_spec hl hf hr.right.left (by omega) h hroom'
    obtain ⟨d₂, hcopies, h₂⟩ := copies_spec hh hcs hr.right.right.right.left (by omega) h₁ hroom
    obtain ⟨d₃, hrounds, h₃⟩ := rounds_spec hl hh fuel hrest hr.right.right.right.right (by omega) (by omega) h₂ hlen
    have hnz : code.value t ≠ 0 := by
      rw [hcount]
      exact (List.length_pos_iff.mpr hne).ne'
    have hnz' : code'.value t ≠ 0 := by
      rw [hcount']
      exact (List.length_pos_iff.mpr hne').ne'
    refine ⟨d₃, ?_, h₃⟩
    rw [rounds, getLoop_spec hh hok hr.left (by omega), ok_bind]
    dsimp only
    rw [if_neg hnz, hcount, hlits, ok_bind]
    dsimp only
    rw [getLoop_spec hh hok' hr.right.right.left (by omega), ok_bind]
    dsimp only
    rw [if_neg hnz', hcount', hcopies, ok_bind]
    exact hrounds

/-! ### Files -/

theorem toNat_half (v : ℕ) : (BitVec.ofNat 8 v).toNat + 256 * (BitVec.ofNat 8 (v / 256)).toNat = v % 65536 := by
  rw [BitVec.toNat_ofNat, BitVec.toNat_ofNat]
  omega

theorem byteAt_append {pre bytes post : List Byte} {i : ℕ} (h : i < bytes.length) :
    byteAt (pre ++ bytes ++ post) (pre.length + i) = byteAt bytes i := by
  unfold byteAt
  rw [List.getElem?_append_left (by rw [List.length_append]; omega), List.getElem?_append_right (by omega),
    Nat.add_sub_cancel_left]

theorem halfAt_append {pre bytes post : List Byte} {i : ℕ} (h : i + 1 < bytes.length) :
    halfAt (pre ++ bytes ++ post) (pre.length + i) = halfAt bytes i := by
  rw [halfAt, word16_append h, halfAt]

/-- The bytes of a header are its tables. -/
theorem headerAt_append {pre first post : List Byte} (t : Tables) (hfirst : first.length = 4) :
    HeaderAt (pre ++ (first ++ t.bytes) ++ post) pre.length t := by
  obtain ⟨a, b, c, e, rfl⟩ : ∃ a b c e, first = [a, b, c, e] := by
    match first, hfirst with
    | [a, b, c, e], _ => exact ⟨a, b, c, e, rfl⟩
  have hbyte : ∀ {i}, i < 24 → byteAt (pre ++ ([a, b, c, e] ++ t.bytes) ++ post) (pre.length + i) =
      byteAt ([a, b, c, e] ++ t.bytes) i := fun hi => byteAt_append hi
  have hhalf : ∀ k : Fin 4, halfAt ([a, b, c, e] ++ t.bytes) (4 + 2 * k) = .ok ((t.repeatTable k).toNat) := by
    intro k
    have hlt := (t.repeatTable k).isLt
    have hword : word16 ([a, b, c, e] ++ t.bytes) (4 + 2 * k) = some ((BitVec.ofNat 8 (t.repeatTable k).toNat).toNat +
        256 * (BitVec.ofNat 8 ((t.repeatTable k).toNat / 256)).toNat) := by fin_cases k <;> rfl
    rw [toNat_half, Nat.mod_eq_of_lt hlt] at hword
    exact halfAt_of_word16 hword
  refine ⟨fun k => ?_, fun k => ?_, fun k => ?_, fun k => ?_, fun k => ?_⟩
  · rw [Nat.add_assoc, halfAt_append, hhalf]
    have hk := k.isLt
    simp [Tables.bytes, half]
    omega
  · rw [Nat.add_assoc, hbyte (by omega)]
    fin_cases k <;> rfl
  · rw [Nat.add_assoc, hbyte (by omega)]
    fin_cases k <;> rfl
  · rw [Nat.add_assoc, hbyte (by omega)]
    fin_cases k <;> rfl
  · rw [Nat.add_assoc, hbyte (by omega)]
    fin_cases k <;> rfl

/-- The bytes of a stored block, by induction on them. -/
theorem stored_spec : ∀ {bytes pre post out : List Byte} {d : Dest}, Holds old out d →
    out.length + bytes.length ≤ old.length →
    ∃ d', stored (pre ++ bytes ++ post) bytes.length pre.length d = .ok (pre.length + bytes.length, d') ∧
      Holds old (out ++ bytes) d'
  | [], pre, post, out, d, h, _ => ⟨d, rfl, by rwa [List.append_nil]⟩
  | b :: bytes, pre, post, out, d, h, hlen => by
    rw [List.length_cons] at hlen
    obtain ⟨d₁, hput, h₁⟩ := h.put (by omega) b
    obtain ⟨d₂, hrest, h₂⟩ := @stored_spec bytes (pre ++ [b]) post _ d₁ h₁ (by rw [List.length_append, List.length_singleton]; omega)
    have hbyte : byteAt (pre ++ b :: bytes ++ post) pre.length = .ok b := by
      rw [← Nat.add_zero pre.length, byteAt_append (Nat.succ_pos _)]
      rfl
    have happ : pre ++ b :: bytes ++ post = pre ++ [b] ++ bytes ++ post := by simp
    rw [List.length_append, List.length_singleton] at hrest
    refine ⟨d₂, ?_, by rwa [← List.singleton_append, ← List.append_assoc]⟩
    rw [List.length_cons, stored, hbyte, ok_bind, hput, ok_bind, happ, hrest, Nat.add_assoc, Nat.add_comm 1]

@[simp] theorem length_half (v : ℕ) : (half v).length = 2 := rfl

@[simp] theorem length_tables (t : Tables) : t.bytes.length = 20 := rfl

/-- **A block.** -/
theorem block_spec {b : Block} {pre post : List Byte} (hl : Lays root 0 tree) (hb : b.Ok tree out) (h : Holds old out d)
    (hlen : (b.run out).length ≤ old.length) :
    ∃ d', block (pre ++ b.bytes ++ post) root pre.length d = .ok (pre.length + b.bytes.length, d') ∧
      Holds old (b.run out) d' := by
  unfold block
  cases b with
  | stored bytes =>
    have hlt : bytes.length < 65536 := hb
    rw [Block.run, List.length_append] at hlen
    obtain ⟨d', hrun, h'⟩ := @stored_spec old bytes (pre ++ (half bytes.length ++ half 0)) post out d h hlen
    have happ : pre ++ (half bytes.length ++ half 0) ++ bytes ++ post = pre ++ Block.bytes (.stored bytes) ++ post := by
      simp [Block.bytes]
    have hzero : halfAt (pre ++ Block.bytes (.stored bytes) ++ post) (pre.length + 2) = .ok 0 := by
      rw [halfAt_append (by simp [Block.bytes]; omega)]
      rfl
    have hhul : halfAt (pre ++ Block.bytes (.stored bytes) ++ post) pre.length = .ok bytes.length := by
      have hword : word16 (Block.bytes (.stored bytes)) 0 = some ((BitVec.ofNat 8 bytes.length).toNat +
          256 * (BitVec.ofNat 8 (bytes.length / 256)).toNat) := rfl
      rw [toNat_half, Nat.mod_eq_of_lt hlt] at hword
      rw [← Nat.add_zero pre.length, halfAt_append (by simp [Block.bytes]; omega), halfAt_of_word16 hword]
    have hpre : (pre ++ (half bytes.length ++ half 0)).length = pre.length + 4 := by simp
    have hbytes : (Block.stored bytes).bytes.length = 4 + bytes.length := by simp [Block.bytes]; omega
    rw [happ, hpre, Nat.add_assoc] at hrun
    refine ⟨d', ?_, h'⟩
    rw [hzero, ok_bind, if_pos rfl, hhul, ok_bind, hbytes, hrun]
  | packed length t body stream =>
    obtain ⟨hbody, hstream, hlt⟩ := hb
    have hbits := hstream.length_le
    have happ : pre ++ (half length ++ half (24 + stream.length) ++ t.bytes) ++ stream ++ post =
        pre ++ Block.bytes (.packed length t body stream) ++ post := by simp [Block.bytes]
    have happ' : pre ++ (half length ++ half (24 + stream.length) ++ t.bytes) ++ (stream ++ post) =
        pre ++ Block.bytes (.packed length t body stream) ++ post := by simp [Block.bytes]
    have hpre : (pre ++ (half length ++ half (24 + stream.length) ++ t.bytes)).length = pre.length + 24 := by simp
    have hheader : HeaderAt (pre ++ Block.bytes (.packed length t body stream) ++ post) pre.length t := by
      rw [← happ']
      exact headerAt_append t rfl
    have hreads : Reads (pre ++ Block.bytes (.packed length t body stream) ++ post) (pre.length + 24) 0 (body.bits t) := by
      rw [← happ, ← hpre]
      exact hstream.within
    have hclen : halfAt (pre ++ Block.bytes (.packed length t body stream) ++ post) (pre.length + 2) = .ok (24 + stream.length) := by
      have hword : word16 (Block.bytes (.packed length t body stream)) 2 = some ((BitVec.ofNat 8 (24 + stream.length)).toNat +
          256 * (BitVec.ofNat 8 ((24 + stream.length) / 256)).toNat) := rfl
      rw [toNat_half, Nat.mod_eq_of_lt hlt] at hword
      rw [halfAt_append (by simp [Block.bytes]; omega), halfAt_of_word16 hword]
    obtain ⟨d', hrun, h'⟩ := rounds_spec hl hheader (fuel (pre ++ Block.bytes (.packed length t body stream) ++ post)) hbody
      hreads (by omega) (hreads.length_le.trans (Nat.le_succ _)) h hlen
    have hbytes : (Block.packed length t body stream).bytes.length = 24 + stream.length := by simp [Block.bytes]; omega
    refine ⟨d', ?_, h'⟩
    rw [hclen, ok_bind, if_neg (by omega), hrun, ok_bind, hbytes]
    rfl

/-- The blocks one after the other. -/
theorem blocks_spec (hl : Lays root 0 tree) : ∀ {bs : List Block} {pre post out : List Byte} {d : Dest},
    BlocksOk tree bs out → Holds old out d → (bs.foldl (fun out b => b.run out) out).length ≤ old.length →
    ∃ d', blocks (pre ++ bs.flatMap Block.bytes ++ post) root bs.length pre.length d = .ok d' ∧
      Holds old (bs.foldl (fun out b => b.run out) out) d'
  | [], _, _, _, d, _, h, _ => ⟨d, rfl, h⟩
  | b :: bs, pre, post, out, d, ⟨hb, hbs⟩, h, hlen => by
    have hgrow : ∀ (bs : List Block) (out : List Byte), out.length ≤ (bs.foldl (fun out b => b.run out) out).length := by
      intro bs
      induction bs with
      | nil => exact fun out => le_rfl
      | cons b bs ih =>
        intro out
        refine le_trans ?_ (ih (b.run out))
        cases b with
        | stored bytes => exact (Nat.le_add_right _ _).trans_eq (List.length_append ..).symm
        | packed length t body stream => exact length_le_run t body out
    have happ : pre ++ (b :: bs).flatMap Block.bytes ++ post = pre ++ b.bytes ++ (bs.flatMap Block.bytes ++ post) := by simp
    have happ' : pre ++ (b :: bs).flatMap Block.bytes ++ post = pre ++ b.bytes ++ bs.flatMap Block.bytes ++ post := by simp
    obtain ⟨d₁, hblock, h₁⟩ := @block_spec old out root tree d b pre (bs.flatMap Block.bytes ++ post) hl hb h
      ((hgrow bs _).trans hlen)
    obtain ⟨d₂, hblocks, h₂⟩ := @blocks_spec hl bs (pre ++ b.bytes) post _ d₁ hbs h₁ hlen
    refine ⟨d₂, ?_, h₂⟩
    rw [List.length_cons, blocks, happ, hblock, ok_bind]
    dsimp only
    rw [← happ, happ', ← List.length_append, hblocks]

/-- The nodes of the tree. -/
theorem treeNodes_spec {flag : ℕ} : ∀ {ns : List (Byte × Bool)} {i p : ℕ},
    (∀ j (h : j < ns.length), byteAt source (15 + (i + j)) = .ok ns[j].1) → Reads source flag p (ns.map fun n => !n.2) →
    p + ns.length < 2 ^ 32 →
    treeNodes source flag ns.length i p = .ok (ns.map fun n => treeNode n.1 (!n.2).toNat)
  | [], _, _, _, _, _ => rfl
  | n :: ns, i, p, hv, hr, hp => by
    rw [List.length_cons] at hp
    have hbit : getBits source flag p 1 = .ok ((!n.2).toNat, p + 1) := getBits_bit hr (by omega)
    have hvalue : byteAt source (15 + i) = .ok n.1 := hv 0 (Nat.succ_pos _)
    have hrest : treeNodes source flag ns.length (i + 1) (p + 1) = .ok (ns.map fun n => treeNode n.1 (!n.2).toNat) := by
      refine treeNodes_spec (fun j hj => ?_) hr.tail (by omega)
      have hnext := hv (j + 1) (by rw [List.length_cons]; omega)
      rwa [List.getElem_cons_succ, show i + (j + 1) = i + 1 + j by omega] at hnext
    rw [List.length_cons, treeNodes, hbit, ok_bind, hvalue, ok_bind, hrest, ok_bind]
    rfl

end Blocks

/-! ### The round trip -/

section RoundTrip

variable {f : File} {post : List Byte}

theorem halfAt_left {bytes : List Byte} {i : ℕ} (h : i + 1 < bytes.length) : halfAt (bytes ++ post) i = halfAt bytes i := by
  have happ := @halfAt_append [] bytes post i h
  rwa [List.nil_append, List.length_nil, Nat.zero_add] at happ

theorem length_header (f : File) : f.header.length = 16 := rfl

/-- A field of two halves. -/
theorem wordAt_header {i v : ℕ} (hv : v < 2 ^ 32) (hi : i + 3 < 16) (hlo : halfAt f.header i = .ok (v % 65536))
    (hhi : halfAt f.header (i + 2) = .ok (v / 65536 % 65536)) : wordAt (f.header ++ post) i = .ok v := by
  have hlen := length_header f
  rw [wordAt, halfAt_left (by omega), hlo, ok_bind, halfAt_left (by omega), hhi, ok_bind]
  have hsum : v % 65536 + 65536 * (v / 65536 % 65536) = v := by omega
  exact congrArg Except.ok hsum

/-- What the header says. -/
theorem header_spec (hf : f.Ok) : wordAt (f.header ++ post) 0 = .ok 0x315f4a59 ∧
    wordAt (f.header ++ post) 4 = .ok f.contents.length ∧ halfAt (f.header ++ post) 12 = .ok f.blocks.length ∧
    byteAt (f.header ++ post) 15 = .ok (BitVec.ofNat 8 (f.nodes.length / 2)) := by
  have hlen := length_header f
  have hhalf : ∀ {i v}, word16 f.header i = some ((BitVec.ofNat 8 v).toNat + 256 * (BitVec.ofNat 8 (v / 256)).toNat) →
      halfAt f.header i = .ok (v % 65536) := fun h => halfAt_of_word16 (toNat_half _ ▸ h)
  refine ⟨?_, ?_, ?_, ?_⟩
  · exact wordAt_header (by norm_num) (by norm_num) (halfAt_of_word16 rfl) (halfAt_of_word16 rfl)
  · exact wordAt_header hf.size (by norm_num) (hhalf rfl) (hhalf rfl)
  · rw [halfAt_left (by omega), hhalf (v := f.blocks.length) rfl, Nat.mod_eq_of_lt hf.count]
  · rfl

/-- The header, the tree and the blocks of a file are read. -/
theorem File.Ok.unpacked (hf : f.Ok) {malloc : ℕ → Option (List Byte)} (hmalloc : malloc (treeSize f.nodes.length) ≠ none)
    (trailing destination : List Byte) {destSize : Word} (hsize : f.contents.length ≤ destSize.toNat)
    (hroom : f.contents.length ≤ destination.length) :
    decompress (f.bytes ++ trailing) malloc destination destSize =
      .ok (BitVec.ofNat 32 f.contents.length, f.contents ++ destination.drop f.contents.length) := by
  have hlen := length_header f
  have heven := hf.even
  have hnodes := hf.nodes
  have hflags := hf.flags
  have hsource : f.bytes ++ trailing = f.header ++ (f.nodes.map Prod.fst ++ f.flags ++ f.blocks.flatMap Block.bytes ++ trailing) := by
    simp [File.bytes]
  obtain ⟨hsig, hsz, hcount, htree⟩ := @header_spec f (f.nodes.map Prod.fst ++ f.flags ++ f.blocks.flatMap Block.bytes ++ trailing) hf
  rw [← hsource] at hsig hsz hcount htree
  have htreeLen : 2 * (BitVec.ofNat 8 (f.nodes.length / 2)).toNat = f.nodes.length := by
    rw [BitVec.toNat_ofNat]
    omega
  have hroot : treeNodes (f.bytes ++ trailing) (16 + f.nodes.length) f.nodes.length 1 0 =
      .ok (f.nodes.map fun n => treeNode n.1 (!n.2).toNat) := by
    refine treeNodes_spec (fun j hj => ?_) ?_ (by omega)
    · have hvalue := @byteAt_append f.header (f.nodes.map Prod.fst) (f.flags ++ f.blocks.flatMap Block.bytes ++ trailing) j (by simpa)
      have happ : f.header ++ f.nodes.map Prod.fst ++ (f.flags ++ f.blocks.flatMap Block.bytes ++ trailing) = f.bytes ++ trailing := by
        simp [File.bytes]
      rw [happ, hlen] at hvalue
      rw [← Nat.add_assoc, hvalue, byteAt, List.getElem?_map, List.getElem?_eq_getElem hj]
      rfl
    · have hreads := @Reads.within _ f.flags (f.header ++ f.nodes.map Prod.fst) (f.blocks.flatMap Block.bytes ++ trailing) hf.leaves
      have happ : f.header ++ f.nodes.map Prod.fst ++ f.flags ++ (f.blocks.flatMap Block.bytes ++ trailing) = f.bytes ++ trailing := by
        simp [File.bytes]
      rwa [happ, List.length_append, hlen, List.length_map] at hreads
  have hstart : 16 + f.nodes.length + 2 * (if f.nodes.length % 16 ≠ 0 then f.nodes.length / 16 + 1 else f.nodes.length / 16) =
      (f.header ++ f.nodes.map Prod.fst ++ f.flags).length := by
    rw [List.length_append, List.length_append, hlen, List.length_map, hflags]
    split <;> omega
  obtain ⟨d, hrun, hd⟩ := @blocks_spec destination f.root f.tree hf.lays f.blocks (f.header ++ f.nodes.map Prod.fst ++ f.flags)
    trailing [] ⟨destination, 0⟩ hf.blocks rfl hroom
  have happ : f.header ++ f.nodes.map Prod.fst ++ f.flags ++ f.blocks.flatMap Block.bytes ++ trailing = f.bytes ++ trailing := by
    simp [File.bytes]
  rw [happ, ← hstart] at hrun
  unfold decompress
  rw [hsig, ok_bind, if_neg (by simp), hsz, ok_bind, if_neg (by omega), htree, ok_bind]
  dsimp only
  rw [htreeLen, if_neg hmalloc, hroot, ok_bind, hcount, ok_bind]
  obtain rfl := hd
  rw [show (⟨0, false, 1, 2⟩ :: f.nodes.map fun n => treeNode n.1 (!n.2).toNat) = f.root from rfl, hrun]
  rfl

/-- **The round trip.** With memory for the tree, a file, with anything behind it, is decompressed to its
contents; the rest of the destination stays as it is. -/
theorem decompress_file (hf : f.Ok) {malloc : ℕ → Option (List Byte)} (hmalloc : malloc (treeSize f.nodes.length) ≠ none)
    (trailing destination : List Byte) {destSize : Word} (hsize : f.contents.length ≤ destSize.toNat)
    (hroom : f.contents.length ≤ destination.length) :
    decompress (f.bytes ++ trailing) malloc destination destSize =
      .ok (BitVec.ofNat 32 f.contents.length, f.contents ++ destination.drop f.contents.length) :=
  hf.unpacked hmalloc trailing destination hsize hroom

def overlapTables : Tables := ⟨fun _ => 5, fun _ => 2, fun _ => 0, fun _ => 1, fun k => if k = 0 then 2 else 1⟩

def overlapBody : Body :=
  .round (.table 0) [⟨[false], 0x41⟩, ⟨[true], 0x42⟩] (.table 1) [⟨.table 0, 0, 2⟩] (.stop (.direct 0 0))

/-- Two literals, and five bytes from two before. -/
def overlap : File :=
  ⟨0, 0, .node (.leaf 0x41) (.leaf 0x42), [(0x41, true), (0x42, true)], pack [false, false],
    [.packed 7 overlapTables overlapBody (pack (overlapBody.bits overlapTables))]⟩

theorem contents_overlap : overlap.contents = [0x41, 0x42, 0x41, 0x42, 0x41, 0x42, 0x41] := rfl

theorem ok_overlap : overlap.Ok where
  even := rfl
  nodes := by decide
  lays := ⟨0, rfl, rfl, rfl⟩
  flags := rfl
  leaves := reads_pack _
  count := by decide
  size := by rw [contents_overlap]; decide
  blocks := by
    have hfind : overlap.tree.find [false] = some 0x41 ∧ overlap.tree.find [true] = some 0x42 := ⟨rfl, rfl⟩
    refine ⟨⟨⟨⟨trivial, rfl, by simp, ?_⟩, ⟨trivial, rfl, by simp⟩, ⟨⟨trivial, ?_, ?_, ?_⟩, trivial⟩, ?_, rfl⟩,
      reads_pack _, by decide⟩, trivial⟩
    · simpa using hfind
    · exact ⟨by decide, by decide, by decide⟩
    · decide
    · decide
    · exact ⟨by decide, by decide, by decide⟩

theorem decompress_file_overlap :
    decompress (overlap.bytes ++ [0xff]) (fun k => if k ≤ 60 then some (List.replicate k 0xcc) else none) (List.replicate 8 0) 8 =
      .ok (7, [0x41, 0x42, 0x41, 0x42, 0x41, 0x42, 0x41, 0]) :=
  decompress_file ok_overlap (by decide) [0xff] (List.replicate 8 0) (by decide) (by decide)

end RoundTrip

end Yj1

end Nemu
