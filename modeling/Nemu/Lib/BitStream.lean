/-
# Bits in 16-bit words

A stream of bits is kept in little-endian words of 16 bits, the first bit of a
word the highest. `bitAt` reads one bit of it, if its word is there; a list of
bits is in the stream from a position on if each of them is (`Reads`), and every
list of bits is the stream of some bytes (`reads_pack`). The bits of a number are
listed from the highest.

Key definitions: `ofBits`, `toBits`, `bitAt`, `Reads`, `pack`.
Key theorems: `testBit_ofBits`, `ofBits_toBits`, `Reads.left`, `Reads.right`, `reads_pack`.
-/
import Mathlib.Data.List.GetD
import Nemu.Lib.Bytes

namespace BitStream

open Bytes

/-! ### Numbers -/

/-- The number with these bits. -/
def ofBits : List Bool → ℕ
  | [] => 0
  | b :: bs => 2 ^ bs.length * b.toNat + ofBits bs

/-- The low `n` bits of a number. -/
def toBits : ℕ → ℕ → List Bool
  | 0, _ => []
  | n + 1, v => v.testBit n :: toBits n v

@[simp] theorem length_toBits : ∀ n v, (toBits n v).length = n
  | 0, _ => rfl
  | n + 1, v => by rw [toBits, List.length_cons, length_toBits n v]

theorem ofBits_lt : ∀ bs, ofBits bs < 2 ^ bs.length
  | [] => by simp [ofBits]
  | b :: bs => by
    have ih := ofBits_lt bs
    rw [ofBits, List.length_cons, Nat.pow_succ]
    cases b <;> simp <;> omega

/-- Bit `j` of the number is the `j`-th bit from the end. -/
theorem testBit_ofBits : ∀ (bs : List Bool) (j : ℕ),
    (ofBits bs).testBit j = (decide (j < bs.length) && bs.getD (bs.length - 1 - j) false)
  | [], j => by simp [ofBits]
  | b :: bs, j => by
    rw [ofBits, Nat.testBit_two_pow_mul_add _ (ofBits_lt bs), testBit_ofBits bs j, List.length_cons]
    by_cases hj : j < bs.length
    · have hidx : bs.length + 1 - 1 - j = bs.length - 1 - j + 1 := by omega
      rw [if_pos hj, hidx, List.getD_cons_succ, decide_eq_true hj, decide_eq_true (by omega : j < bs.length + 1)]
    · rw [if_neg hj]
      by_cases he : j = bs.length
      · subst he
        cases b <;> simp
      · have hlt : ¬j < bs.length + 1 := by omega
        rw [decide_eq_false hlt, Bool.false_and]
        apply Nat.testBit_lt_two_pow
        calc b.toNat < 2 ^ 1 := by cases b <;> simp
          _ ≤ 2 ^ (j - bs.length) := Nat.pow_le_pow_right (by norm_num) (by omega)

theorem toNat_testBit (v n : ℕ) : (v.testBit n).toNat = v / 2 ^ n % 2 := by
  rw [Nat.testBit_eq_decide_div_mod_eq]
  rcases Nat.mod_two_eq_zero_or_one (v / 2 ^ n) with h | h <;> simp [h]

theorem ofBits_toBits : ∀ {n v : ℕ}, v < 2 ^ n → ofBits (toBits n v) = v := by
  have hmod : ∀ n v, ofBits (toBits n v) = v % 2 ^ n := by
    intro n v
    induction n with
    | zero => simp [toBits, ofBits, Nat.mod_one]
    | succ n ih => rw [toBits, ofBits, ih, length_toBits, toNat_testBit, Nat.pow_succ, Nat.mod_mul, Nat.add_comm]
  intro n v hv
  rw [hmod, Nat.mod_eq_of_lt hv]

/-! ### Streams -/

/-- The word at an offset, if both of its bytes are there. -/
def word16 (src : List Byte) (i : ℕ) : Option ℕ :=
  match src[i]?, src[i + 1]? with
  | some b₀, some b₁ => some (b₀.toNat + 256 * b₁.toNat)
  | _, _ => none

theorem word16_lt {src : List Byte} {i w : ℕ} (h : word16 src i = some w) : w < 2 ^ 16 := by
  unfold word16 at h
  split at h
  · next b₀ b₁ _ _ =>
    have h₀ := b₀.isLt
    have h₁ := b₁.isLt
    obtain rfl := Option.some.inj h
    omega
  · exact nomatch h

theorem word16_inside {src : List Byte} {i w : ℕ} (h : word16 src i = some w) : i + 1 < src.length := by
  by_contra hge
  have hnone : src[i + 1]? = none := List.getElem?_eq_none (by omega)
  unfold word16 at h
  rw [hnone] at h
  split at h
  · next h₁ => exact nomatch h₁
  · exact nomatch h

/-- Bit `p` of the stream at offset `base`. -/
def bitAt (src : List Byte) (base p : ℕ) : Option Bool :=
  (word16 src (base + p / 16 * 2)).map fun w => w.testBit (15 - p % 16)

/-- These bits are in the stream, from position `p` on. -/
def Reads (src : List Byte) (base p : ℕ) (bs : List Bool) : Prop :=
  ∀ k (h : k < bs.length), bitAt src base (p + k) = some bs[k]

section Reads

variable {src : List Byte} {base p : ℕ} {bs bs' : List Bool}

theorem Reads.left (h : Reads src base p (bs ++ bs')) : Reads src base p bs := by
  intro k hk
  rw [h k (by rw [List.length_append]; omega), List.getElem_append_left hk]

theorem Reads.right (h : Reads src base p (bs ++ bs')) : Reads src base (p + bs.length) bs' := by
  intro k hk
  rw [Nat.add_assoc, h (bs.length + k) (by rw [List.length_append]; omega), List.getElem_append_right (by omega)]
  simp

theorem Reads.head {b : Bool} (h : Reads src base p (b :: bs)) : Reads src base p [b] :=
  Reads.left (show Reads src base p ([b] ++ bs) from h)

theorem Reads.tail {b : Bool} (h : Reads src base p (b :: bs)) : Reads src base (p + 1) bs := by
  have hright : Reads src base (p + [b].length) bs := Reads.right h
  exact hright

/-- The word of a bit that is read. -/
theorem Reads.word {k : ℕ} (h : Reads src base p bs) (hk : k < bs.length) :
    ∃ w, word16 src (base + (p + k) / 16 * 2) = some w ∧ w.testBit (15 - (p + k) % 16) = bs[k] :=
  Option.map_eq_some_iff.mp (h k hk)

/-- There are no more bits than the source has. -/
theorem Reads.length_le (h : Reads src base p bs) : bs.length ≤ 8 * src.length := by
  by_cases hbs : bs = []
  · subst hbs
    exact Nat.zero_le _
  · have hpos := List.length_pos_iff.mpr hbs
    obtain ⟨w, hw, -⟩ := h.word (k := bs.length - 1) (by omega)
    have hin := word16_inside hw
    omega

theorem word16_append {pre post : List Byte} {i : ℕ} {bytes : List Byte} (h : i + 1 < bytes.length) :
    word16 (pre ++ bytes ++ post) (pre.length + i) = word16 bytes i := by
  unfold word16
  rw [List.getElem?_append_left (by rw [List.length_append]; omega), List.getElem?_append_right (by omega),
    List.getElem?_append_left (by rw [List.length_append]; omega), List.getElem?_append_right (by omega)]
  have h₀ : pre.length + i - pre.length = i := by omega
  have h₁ : pre.length + i + 1 - pre.length = i + 1 := by omega
  rw [h₀, h₁]

/-- A stream inside of a file. -/
theorem Reads.within {bytes pre post : List Byte} (h : Reads bytes 0 0 bs) :
    Reads (pre ++ bytes ++ post) pre.length 0 bs := by
  intro k hk
  obtain ⟨w, hw, hbit⟩ := h.word hk
  rw [Nat.zero_add] at hw
  rw [bitAt, word16_append (word16_inside hw), hw, Option.map_some, hbit]

end Reads

/-! ### Fields

How the bits of a field are put together from the one or two words that they are in; `b` is the
place of the first one in its word. -/

section Fields

variable {w w' b : ℕ} {bs : List Bool}

theorem ofBits_of_word (hlen : b + bs.length ≤ 16)
    (hbits : ∀ k (h : k < bs.length), w.testBit (15 - (b + k)) = bs[k]) :
    ((w <<< b) % 2 ^ 16) >>> (16 - bs.length) = ofBits bs := by
  apply Nat.eq_of_testBit_eq
  intro j
  rw [testBit_ofBits, Nat.testBit_shiftRight, Nat.testBit_mod_two_pow, Nat.testBit_shiftLeft]
  by_cases hj : j < bs.length
  · have hbit := hbits (bs.length - 1 - j) (by omega)
    have hidx : 16 - bs.length + j - b = 15 - (b + (bs.length - 1 - j)) := by omega
    rw [List.getD_eq_getElem _ _ (by omega), ← hbit, hidx, decide_eq_true hj, decide_eq_true (by omega : 16 - bs.length + j < 16),
      decide_eq_true (by omega : 16 - bs.length + j ≥ b)]
    rfl
  · rw [decide_eq_false hj, decide_eq_false (by omega : ¬16 - bs.length + j < 16), Bool.false_and, Bool.false_and]

theorem ofBits_of_words (hw' : w' < 2 ^ 16) (hb : b < 16) (hlen : 16 < b + bs.length) (hmax : b + bs.length ≤ 32)
    (hbits : ∀ k (h : k < bs.length), b + k < 16 → w.testBit (15 - (b + k)) = bs[k])
    (hbits' : ∀ k (h : k < bs.length), 16 ≤ b + k → w'.testBit (31 - (b + k)) = bs[k]) :
    ((w &&& (0xffff >>> b)) <<< (bs.length + b - 16)) % 2 ^ 32 ||| w' >>> (16 - (bs.length + b - 16)) = ofBits bs := by
  have hmask : ∀ j, (0xffff >>> b).testBit j = decide (b + j < 16) := fun j => by
    rw [Nat.testBit_shiftRight, show (0xffff : ℕ) = 2 ^ 16 - 1 from rfl, Nat.testBit_two_pow_sub_one]
  apply Nat.eq_of_testBit_eq
  intro j
  rw [testBit_ofBits, Nat.testBit_or, Nat.testBit_mod_two_pow, Nat.testBit_shiftLeft, Nat.testBit_and, hmask,
    Nat.testBit_shiftRight]
  by_cases hj : j < bs.length
  · rw [List.getD_eq_getElem _ _ (by omega), decide_eq_true hj, decide_eq_true (by omega : j < 32)]
    by_cases hlow : j < bs.length + b - 16
    · have hbit := hbits' (bs.length - 1 - j) (by omega) (by omega)
      have hidx : 16 - (bs.length + b - 16) + j = 31 - (b + (bs.length - 1 - j)) := by omega
      rw [decide_eq_false (by omega : ¬j ≥ bs.length + b - 16), ← hbit, hidx]
      simp
    · have hbit := hbits (bs.length - 1 - j) (by omega) (by omega)
      have hidx : j - (bs.length + b - 16) = 15 - (b + (bs.length - 1 - j)) := by omega
      have hzero : w'.testBit (16 - (bs.length + b - 16) + j) = false :=
        Nat.testBit_lt_two_pow (hw'.trans_le (Nat.pow_le_pow_right (by norm_num) (by omega)))
      rw [decide_eq_true (by omega : j ≥ bs.length + b - 16), decide_eq_true (by omega : b + (j - (bs.length + b - 16)) < 16),
        hzero, ← hbit, hidx]
      simp
  · have hzero : w'.testBit (16 - (bs.length + b - 16) + j) = false :=
      Nat.testBit_lt_two_pow (hw'.trans_le (Nat.pow_le_pow_right (by norm_num) (by omega)))
    rw [decide_eq_false hj, hzero, decide_eq_false (by omega : ¬b + (j - (bs.length + b - 16)) < 16)]
    simp

end Fields

/-! ### Writing a stream -/

/-- Word `i` of a list of bits, which is filled up with zeroes. -/
def packWord (bs : List Bool) (i : ℕ) : ℕ := ofBits ((List.range 16).map fun k => bs.getD (16 * i + k) false)

/-- As many words as the bits need. -/
def pack (bs : List Bool) : List Byte :=
  (List.range ((bs.length + 15) / 16 * 2)).map fun j => BitVec.ofNat 8 (packWord bs (j / 2) / 256 ^ (j % 2))

@[simp] theorem length_pack (bs : List Bool) : (pack bs).length = (bs.length + 15) / 16 * 2 := by
  simp [pack]

theorem packWord_lt (bs : List Bool) (i : ℕ) : packWord bs i < 2 ^ 16 := by
  have h := ofBits_lt ((List.range 16).map fun k => bs.getD (16 * i + k) false)
  rwa [List.length_map, List.length_range] at h

theorem word16_pack {bs : List Bool} {i : ℕ} (h : i < (bs.length + 15) / 16) :
    word16 (pack bs) (i * 2) = some (packWord bs i) := by
  have hw := packWord_lt bs i
  have hget : ∀ j < (bs.length + 15) / 16 * 2, (pack bs)[j]? = some (BitVec.ofNat 8 (packWord bs (j / 2) / 256 ^ (j % 2))) := by
    intro j hj
    rw [pack, List.getElem?_map, List.getElem?_range hj, Option.map_some]
  have h₀ : i * 2 / 2 = i ∧ i * 2 % 2 = 0 := by omega
  have h₁ : (i * 2 + 1) / 2 = i ∧ (i * 2 + 1) % 2 = 1 := by omega
  rw [word16, hget _ (by omega), hget _ (by omega), h₀.1, h₀.2, h₁.1, h₁.2]
  generalize packWord bs i = w at hw ⊢
  have hsum : (BitVec.ofNat 8 (w / 256 ^ 0)).toNat + 256 * (BitVec.ofNat 8 (w / 256 ^ 1)).toNat = w := by
    rw [BitVec.toNat_ofNat, BitVec.toNat_ofNat, Nat.pow_zero, Nat.pow_one]
    omega
  exact congrArg some hsum

/-- **Every list of bits** is in the stream that is packed from it. -/
theorem reads_pack (bs : List Bool) : Reads (pack bs) 0 0 bs := by
  intro k hk
  have hword : word16 (pack bs) (k / 16 * 2) = some (packWord bs (k / 16)) := word16_pack (by omega)
  have hbit : (packWord bs (k / 16)).testBit (15 - k % 16) = bs[k] := by
    have hlt := Nat.mod_lt k (by norm_num : 0 < 16)
    have hidx : 16 - 1 - (15 - k % 16) = k % 16 := by omega
    rw [packWord, testBit_ofBits, List.length_map, List.length_range, decide_eq_true (by omega), Bool.true_and, hidx,
      List.getD_eq_getElem _ _ (by simpa using hlt), List.getElem_map, List.getElem_range, Nat.div_add_mod,
      List.getD_eq_getElem _ _ hk]
  rw [bitAt, Nat.zero_add, Nat.zero_add, hword, Option.map_some, hbit]

end BitStream
