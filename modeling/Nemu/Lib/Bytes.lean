/-
# Words as little-endian bytes

A 32-bit word is its four bytes, the lowest first: `byte w i` reads byte `i`,
`word f n` builds a word from `n` bytes, and two words with the same bytes are
equal (`ext_bytes`). The shifts by whole bytes, the masks of the low bytes and
the bitwise or are then facts about single bytes, which is how a memory that
stores bytes and an access that moves words meet.

A flat memory is a function from addresses to bytes; `load` and `store` move
up to four bytes of it, and an access is the sum of its pieces
(`word_append`, `store_store`).

Key definitions: `byte`, `word`, `low`, `Flat`, `load`, `store`.
Key theorems: `byte_word`, `ext_bytes`, `word_byte`, `byte_and_low`,
`load_store_self`, `store_store`.
-/
import Mathlib.Data.Nat.Notation
import Mathlib.Tactic.IntervalCases
import Mathlib.Tactic.Ring
import Mathlib.Tactic.NormNum

namespace Bytes

abbrev Byte : Type := BitVec 8
abbrev Word : Type := BitVec 32

-- Named, so that a numeral of a small index type is one term in all modules.
instance neZero_four : NeZero 4 := ⟨by decide⟩
instance neZero_six : NeZero 6 := ⟨by decide⟩
instance neZero_eight : NeZero 8 := ⟨by decide⟩
instance neZero_sixteen : NeZero 16 := ⟨by decide⟩

/-- Byte `i` of a word, the lowest first. -/
def byte (w : Word) (i : ℕ) : Byte := (w >>> (8 * i)).setWidth 8

/-- The word whose byte `i` is `f i` for `i < n`, and 0 above. -/
def word (f : ℕ → Byte) : ℕ → Word
  | 0 => 0#32
  | n + 1 => word f n ||| ((f n).setWidth 32 <<< (8 * n))

/-- Ones in the low `n` bytes. -/
def low (n : ℕ) : Word := BitVec.allOnes 32 >>> ((4 - n) * 8)

theorem getLsbD_byte (w : Word) (i j : ℕ) :
    (byte w i).getLsbD j = (decide (j < 8) && w.getLsbD (8 * i + j)) := by
  simp [byte]

/-- A word is its bytes. -/
theorem ext_bytes {v w : Word} (h : ∀ i < 4, byte v i = byte w i) : v = w := by
  apply BitVec.eq_of_getLsbD_eq
  intro p hp
  have hb := congrArg (fun b => b.getLsbD (p % 8)) (h (p / 8) (by omega))
  have hj : p % 8 < 8 := Nat.mod_lt _ (by norm_num)
  simpa only [getLsbD_byte, hj, decide_true, Bool.true_and, Nat.div_add_mod] using hb

@[simp] theorem byte_or (v w : Word) (i : ℕ) : byte (v ||| w) i = byte v i ||| byte w i := by
  apply BitVec.eq_of_getLsbD_eq
  intro j hj
  simp only [getLsbD_byte, BitVec.getLsbD_or, Bool.and_or_distrib_left]

@[simp] theorem byte_zero (i : ℕ) : byte 0#32 i = 0#8 := by
  apply BitVec.eq_of_getLsbD_eq
  intro j hj
  simp [getLsbD_byte]

/-- A shift to the left by whole bytes moves the bytes up. -/
theorem byte_shl (w : Word) (n i : ℕ) (hi : i < 4) :
    byte (w <<< (8 * n)) i = if n ≤ i then byte w (i - n) else 0 := by
  apply BitVec.eq_of_getLsbD_eq
  intro j hj
  rw [getLsbD_byte, BitVec.getLsbD_shiftLeft]
  split_ifs with h
  · rw [getLsbD_byte, show 8 * i + j - 8 * n = 8 * (i - n) + j by omega]
    simp [hj, show 8 * i + j < 32 by omega, show ¬ 8 * i + j < 8 * n by omega]
  · simp [show 8 * i + j < 8 * n by omega]

/-- A shift to the right by whole bytes moves the bytes down. -/
theorem byte_shr (w : Word) (n i : ℕ) : byte (w >>> (8 * n)) i = byte w (i + n) := by
  apply BitVec.eq_of_getLsbD_eq
  intro j hj
  rw [getLsbD_byte, getLsbD_byte, BitVec.getLsbD_ushiftRight,
    show 8 * n + (8 * i + j) = 8 * (i + n) + j by omega]

theorem byte_setWidth (b : Byte) (i : ℕ) : byte (b.setWidth 32) i = if i = 0 then b else 0 := by
  apply BitVec.eq_of_getLsbD_eq
  intro j hj
  rw [getLsbD_byte, BitVec.getLsbD_setWidth]
  split_ifs with h
  · subst h; simp [hj]; omega
  · rw [BitVec.getLsbD_of_ge b _ (by omega)]; simp

/-- The bytes of a word cut to its low `n`. -/
theorem byte_trunc (w : Word) {n i : ℕ} (hi : i < 4) :
    byte ((w.setWidth (8 * n)).setWidth 32) i = if i < n then byte w i else 0 := by
  apply BitVec.eq_of_getLsbD_eq
  intro j hj
  rw [getLsbD_byte, BitVec.getLsbD_setWidth, BitVec.getLsbD_setWidth]
  split_ifs with h
  · rw [getLsbD_byte]
    simp [hj, show 8 * i + j < 32 by omega, show 8 * i + j < 8 * n by omega]
  · simp [show ¬ 8 * i + j < 8 * n by omega]

/-- The bytes of a word built from bytes. -/
theorem byte_word (f : ℕ → Byte) : ∀ (n i : ℕ), i < 4 →
    byte (word f n) i = if i < n then f i else 0
  | 0, i, _ => by simp [word]
  | n + 1, i, hi => by
    rw [word, byte_or, byte_word f n i hi, byte_shl _ _ _ hi, byte_setWidth]
    rcases Nat.lt_trichotomy i n with h | h | h
    · simp [h, show ¬ n ≤ i by omega, show i < n + 1 by omega]
    · subst h; simp
    · simp [show ¬ i < n by omega, show n ≤ i by omega, show ¬ i - n = 0 by omega,
        show ¬ i < n + 1 by omega]

theorem word_congr {f g : ℕ → Byte} : ∀ {n : ℕ}, (∀ i < n, f i = g i) → word f n = word g n
  | 0, _ => rfl
  | n + 1, h => by
    rw [word, word, word_congr fun i hi => h i (by omega), h n (by omega)]

/-- A word is rebuilt from its bytes. -/
theorem word_byte (w : Word) : word (byte w) 4 = w :=
  ext_bytes fun i hi => by rw [byte_word _ _ _ hi, if_pos hi]

/-- Ones up to bit `8 n`. -/
theorem getLsbD_low {n : ℕ} (hn : n ≤ 4) (p : ℕ) : (low n).getLsbD p = decide (p < 8 * n) := by
  rw [low, BitVec.getLsbD_ushiftRight, BitVec.getLsbD_allOnes]
  exact decide_eq_decide.mpr (by omega)

/-- The mask of the low `n` bytes keeps them. -/
theorem byte_and_low (w : Word) {n i : ℕ} (hn : n ≤ 4) :
    byte (w &&& low n) i = if i < n then byte w i else 0 := by
  apply BitVec.eq_of_getLsbD_eq
  intro j hj
  rw [getLsbD_byte, BitVec.getLsbD_and, getLsbD_low hn]
  split_ifs with h
  · rw [getLsbD_byte]; simp [hj, show 8 * i + j < 8 * n by omega]
  · simp [show ¬ 8 * i + j < 8 * n by omega]

/-- The mask of the low `n < 4` bytes, as C code often spells it. -/
theorem low_eq_shl_sub_one {n : ℕ} (hn : n < 4) : (1 : Word) <<< (n * 8) - 1 = low n := by
  interval_cases n <;> decide

/-- Clearing the low `k` bits rounds down to a multiple of `2 ^ k`. -/
theorem toNat_and_shl_ones (a : Word) {k : ℕ} :
    (a &&& (BitVec.allOnes 32 <<< k)).toNat = a.toNat / 2 ^ k * 2 ^ k := by
  have h : a &&& (BitVec.allOnes 32 <<< k) = (a >>> k) <<< k := by
    apply BitVec.eq_of_getLsbD_eq
    intro i hi
    rw [BitVec.getLsbD_and, BitVec.getLsbD_shiftLeft, BitVec.getLsbD_shiftLeft,
      BitVec.getLsbD_ushiftRight, BitVec.getLsbD_allOnes]
    by_cases hk : i < k
    · simp [hk]
    · simp [hk, hi, show k + (i - k) = i by omega, show i - k < 32 by omega]
  have hle : a.toNat / 2 ^ k * 2 ^ k ≤ a.toNat := Nat.div_mul_le_self _ _
  rw [h, BitVec.toNat_shiftLeft, BitVec.toNat_ushiftRight, Nat.shiftRight_eq_div_pow,
    Nat.shiftLeft_eq, Nat.mod_eq_of_lt (by have := a.isLt; omega)]

theorem toNat_add_ofNat {a : Word} {i : ℕ} (h : a.toNat + i < 2 ^ 32) :
    (a + BitVec.ofNat 32 i).toNat = a.toNat + i := by
  rw [BitVec.toNat_add, BitVec.toNat_ofNat, Nat.mod_eq_of_lt (show i < 2 ^ 32 by omega),
    Nat.mod_eq_of_lt h]

/-- An or of separate bits is a sum. -/
theorem toNat_or_low {x y : Word} {k : ℕ} (hx : x.toNat % 2 ^ k = 0) (hy : y.toNat < 2 ^ k) :
    (x ||| y).toNat = x.toNat + y.toNat := by
  have h := Nat.shiftLeft_add_eq_or_of_lt hy (x.toNat / 2 ^ k)
  rw [Nat.shiftLeft_eq, Nat.div_mul_cancel (Nat.dvd_of_mod_eq_zero hx)] at h
  rw [BitVec.toNat_or, h]

/-- A field of a word after an arithmetic shift: the copies of the sign are above it. -/
theorem toNat_sshiftRight_field (w : Word) {k n : ℕ} (h : k + n ≤ 32) :
    ((w.sshiftRight k).setWidth n).toNat = w.toNat / 2 ^ k % 2 ^ n := by
  have hlogic : (w.sshiftRight k).setWidth n = (w >>> k).setWidth n := by
    apply BitVec.eq_of_getLsbD_eq
    intro i hi
    rw [BitVec.getLsbD_setWidth, BitVec.getLsbD_setWidth, BitVec.getLsbD_sshiftRight, BitVec.getLsbD_ushiftRight]
    have hin : k + i < 32 := by omega
    have hle : ¬ 32 ≤ i := by omega
    simp [hin, hle]
  rw [hlogic, BitVec.toNat_setWidth, BitVec.toNat_ushiftRight, Nat.shiftRight_eq_div_pow]

/-- A word cut to `n` bytes is built from its low `n` bytes. -/
theorem and_low_eq_word (w : Word) {n : ℕ} (hn : n ≤ 4) : w &&& low n = word (byte w) n :=
  ext_bytes fun i hi => by rw [byte_and_low w hn, byte_word _ _ _ hi]

/-- Two pieces of an access, put together again. -/
theorem word_append (f : ℕ → Byte) {m n : ℕ} (h : m + n ≤ 4) :
    word (fun i => f (m + i)) n <<< (8 * m) ||| word f m = word f (m + n) := by
  apply ext_bytes
  intro i hi
  rw [byte_or, byte_shl _ _ _ hi, byte_word _ _ _ hi, byte_word _ _ _ hi]
  by_cases h1 : m ≤ i
  · rw [if_pos h1, byte_word _ _ _ (by omega)]
    by_cases h2 : i < m + n
    · simp [show i - m < n by omega, h2, show ¬ i < m by omega, Nat.add_sub_cancel' h1]
    · simp [show ¬ i - m < n by omega, h2, show ¬ i < m by omega]
  · simp [h1, show i < m by omega, show i < m + n by omega]

/-! ### Flat memories -/

/-- One byte for each address. -/
abbrev Flat : Type := ℕ → Byte

/-- The little-endian value of `len` bytes. -/
def load (m : Flat) (a len : ℕ) : Word := word (fun i => m (a + i)) len

/-- The low `len` bytes of `v`, stored at `a`. -/
def store (m : Flat) (a len : ℕ) (v : Word) : Flat :=
  fun n => if a ≤ n ∧ n < a + len then byte v (n - a) else m n

theorem store_of_mem {m : Flat} {a len n : ℕ} {v : Word} (h : a ≤ n ∧ n < a + len) :
    store m a len v n = byte v (n - a) := if_pos h

theorem store_of_not_mem {m : Flat} {a len n : ℕ} {v : Word} (h : ¬ (a ≤ n ∧ n < a + len)) :
    store m a len v n = m n := if_neg h

/-- What was stored is loaded again. -/
theorem load_store_self (m : Flat) (a : ℕ) {len : ℕ} (h : len ≤ 4) (v : Word) :
    load (store m a len v) a len = v &&& low len := by
  rw [and_low_eq_word v h, load]
  refine word_congr fun i hi => ?_
  rw [store_of_mem ⟨Nat.le_add_right a i, by omega⟩, Nat.add_sub_cancel_left]

/-- A store leaves a load beside it alone. -/
theorem load_store_of_disjoint {m : Flat} {a b la lb : ℕ} {v : Word}
    (h : a + la ≤ b ∨ b + lb ≤ a) : load (store m a la v) b lb = load m b lb := by
  refine word_congr fun i hi => store_of_not_mem ?_
  omega

/-- A store is the store of its low bytes and then of the rest. -/
theorem store_store (m : Flat) (a : ℕ) {k len : ℕ} (hk : k ≤ len) (h4 : len ≤ 4) (v : Word) :
    store (store m a k (v &&& low k)) (a + k) (len - k) (v >>> (8 * k)) = store m a len v := by
  funext n
  by_cases hhi : a + k ≤ n ∧ n < a + k + (len - k)
  · rw [store_of_mem hhi, store_of_mem ⟨by omega, by omega⟩, byte_shr,
      show n - (a + k) + k = n - a by omega]
  · rw [store_of_not_mem hhi]
    by_cases hlo : a ≤ n ∧ n < a + k
    · rw [store_of_mem hlo, store_of_mem ⟨hlo.1, by omega⟩, byte_and_low v (hk.trans h4),
        if_pos (by omega)]
    · rw [store_of_not_mem hlo, store_of_not_mem (by omega)]

end Bytes
