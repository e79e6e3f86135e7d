/-
# Addition and subtraction, limb by limb

A number is a list of limbs, lowest first, in a base `V`. The limbs of a sum or
of a difference are computed in order, each with the carry that the limb before
it left. A computation whose carries may be wrong has the right limbs and the
right last carry if and only if every limb leaves the right carry
(`Exact.snoc_iff`): a wrong carry is seen in the next limb, or is the last one.
A carry that is found by comparing the result with an operand is wrong when the
other operand is all ones and there is a carry in.

Key definitions: `Limbs.Op`, `Op.digit`, `Op.carry`, `Exact`.
Key theorems: `Op.concat`, `Exact.snoc_iff`,
`add_compare_iff`, `sub_compare_iff`.
-/
import Mathlib.Data.Nat.Digits.Lemmas

namespace Limbs

/-- Addition, or subtraction. -/
inductive Op where
  | add | sub
  deriving DecidableEq

/-- The result below `V`, with a carry in. -/
def Op.digit (op : Op) (V a b : ℕ) (c : Bool) : ℕ :=
  match op with
  | .add => (a + b + c.toNat) % V
  | .sub => (V + a - (b + c.toNat)) % V

/-- The carry (or borrow) out, with a carry in. -/
def Op.carry (op : Op) (V a b : ℕ) (c : Bool) : Bool :=
  match op with
  | .add => decide (V ≤ a + b + c.toNat)
  | .sub => decide (a < b + c.toNat)

section Limb

variable {V a b : ℕ} {c : Bool}

theorem Op.digit_lt (op : Op) (hV : 0 < V) : op.digit V a b c < V := by
  cases op <;> exact Nat.mod_lt _ hV

/-- The sum, from its digit and its carry. -/
theorem add_eq (ha : a < V) (hb : b < V) :
    a + b + c.toNat = Op.add.digit V a b c + V * (Op.add.carry V a b c).toNat := by
  have hc := Bool.toNat_le c
  simp only [Op.digit, Op.carry]
  by_cases h : V ≤ a + b + c.toNat
  · rw [decide_eq_true h, Bool.toNat_true, Nat.mod_eq_sub_mod h, Nat.mod_eq_of_lt (by omega)]
    omega
  · rw [decide_eq_false h, Bool.toNat_false, Nat.mod_eq_of_lt (by omega)]
    omega

/-- The minuend, from the digit of the difference and its borrow. -/
theorem sub_eq (ha : a < V) (hb : b < V) :
    a + V * (Op.sub.carry V a b c).toNat = b + c.toNat + Op.sub.digit V a b c := by
  have hc := Bool.toNat_le c
  simp only [Op.digit, Op.carry]
  by_cases h : a < b + c.toNat
  · rw [decide_eq_true h, Bool.toNat_true, Nat.mod_eq_of_lt (by omega)]
    omega
  · have hsub : V + a - (b + c.toNat) = V + (a - (b + c.toNat)) := by omega
    rw [decide_eq_false h, Bool.toNat_false, hsub, Nat.add_mod_left, Nat.mod_eq_of_lt (by omega)]
    omega

/-- A digit shows the carry in. -/
theorem Op.digit_inj (op : Op) (hV : 1 < V) (ha : a < V) (hb : b < V) {c' : Bool}
    (h : op.digit V a b c = op.digit V a b c') : c = c' := by
  cases c <;> cases c' <;> try rfl
  all_goals
    exfalso
    cases op with
    | add =>
      have h0 := add_eq (c := false) ha hb
      have h1 := add_eq (c := true) ha hb
      cases hc0 : Op.add.carry V a b false <;> cases hc1 : Op.add.carry V a b true <;>
        simp only [hc0, hc1, h, Bool.toNat_true, Bool.toNat_false] at h0 h1 <;> omega
    | sub =>
      have h0 := sub_eq (c := false) ha hb
      have h1 := sub_eq (c := true) ha hb
      cases hc0 : Op.sub.carry V a b false <;> cases hc1 : Op.sub.carry V a b true <;>
        simp only [hc0, hc1, h, Bool.toNat_true, Bool.toNat_false] at h0 h1 <;> omega

end Limb

/-! ### Two parts of a number -/

section Concat

variable {W V A B a b : ℕ} {c : Bool}

theorem concat_mod {r x : ℕ} (hr : r < W) : (r + W * x) % (W * V) = r + W * (x % V) := by
  have hW : 0 < W := by omega
  have hdiv : (r + W * x) / W = x := by
    rw [Nat.add_mul_div_left _ _ hW, Nat.div_eq_of_lt hr, Nat.zero_add]
  rw [Nat.mod_mul, Nat.add_mul_mod_self_left, Nat.mod_eq_of_lt hr, hdiv]

theorem concat_lt_iff {r x : ℕ} (hr : r < W) : r + W * x < W * V ↔ x < V := by
  have hW : 0 < W := by omega
  have hdiv : (r + W * x) / W = x := by
    rw [Nat.add_mul_div_left _ _ hW, Nat.div_eq_of_lt hr, Nat.zero_add]
  rw [Nat.mul_comm W V, ← Nat.div_lt_iff_lt_mul hW, hdiv]

/-- An operation on two parts of the numbers, the lower one below `W` and the
higher one below `V`: the higher one takes the carry of the lower one. -/
theorem Op.concat (op : Op) (hW : 0 < W) (hA : A < W) (hB : B < W) (hb : b < V) :
    op.digit (W * V) (A + W * a) (B + W * b) c =
        op.digit W A B c + W * op.digit V a b (op.carry W A B c) ∧
      op.carry (W * V) (A + W * a) (B + W * b) c = op.carry V a b (op.carry W A B c) := by
  have hlt : op.digit W A B c < W := op.digit_lt hW
  cases op with
  | add =>
    have hlow := add_eq (c := c) hA hB
    set r := Op.add.digit W A B c
    set k := Op.add.carry W A B c
    have hsum : A + W * a + (B + W * b) + c.toNat = r + W * (a + b + k.toNat) := by
      calc A + W * a + (B + W * b) + c.toNat = (A + B + c.toNat) + W * (a + b) := by ring
        _ = (r + W * k.toNat) + W * (a + b) := by rw [hlow]
        _ = r + W * (a + b + k.toNat) := by ring
    constructor
    · change (A + W * a + (B + W * b) + c.toNat) % (W * V) = r + W * ((a + b + k.toNat) % V)
      rw [hsum, concat_mod hlt]
    · change decide (W * V ≤ A + W * a + (B + W * b) + c.toNat) = decide (V ≤ a + b + k.toNat)
      rw [decide_eq_decide, hsum, ← not_lt, concat_lt_iff hlt, not_lt]
  | sub =>
    have hlow := sub_eq (c := c) hA hB
    have hk := Bool.toNat_le (Op.sub.carry W A B c)
    set r := Op.sub.digit W A B c
    set k := Op.sub.carry W A B c
    obtain ⟨x, hx⟩ : ∃ x, V + a = b + k.toNat + x := ⟨V + a - (b + k.toNat), by omega⟩
    have hdiff : W * V + (A + W * a) = B + W * b + c.toNat + (r + W * x) := by
      calc W * V + (A + W * a) = A + W * (V + a) := by ring
        _ = A + W * (b + k.toNat + x) := by rw [hx]
        _ = (A + W * k.toNat) + W * b + W * x := by ring
        _ = (B + c.toNat + r) + W * b + W * x := by rw [hlow]
        _ = B + W * b + c.toNat + (r + W * x) := by ring
    constructor
    · change (W * V + (A + W * a) - (B + W * b + c.toNat)) % (W * V) =
        r + W * ((V + a - (b + k.toNat)) % V)
      rw [hdiff, hx, Nat.add_sub_cancel_left, Nat.add_sub_cancel_left, concat_mod hlt]
    · change decide (A + W * a < B + W * b + c.toNat) = decide (a < b + k.toNat)
      have hxV : r + W * x < W * V ↔ x < V := concat_lt_iff hlt
      rw [decide_eq_decide]
      omega

end Concat

/-! ### A computation with carries -/

/-- The number of these limbs. -/
abbrev num (V : ℕ) (ls : List ℕ) : ℕ := Nat.ofDigits V ls

/-- The limbs `rs` are those of the result of the operation, and `c` is its carry. -/
structure Exact (op : Op) (V : ℕ) (as bs rs : List ℕ) (c : Bool) : Prop where
  value : num V rs = op.digit (V ^ as.length) (num V as) (num V bs) false
  carry : c = op.carry (V ^ as.length) (num V as) (num V bs) false

section Exact

variable {op : Op} {V : ℕ} {as bs rs : List ℕ}

theorem num_snoc (V : ℕ) (ls : List ℕ) (a : ℕ) : num V (ls ++ [a]) = num V ls + V ^ ls.length * a := by
  rw [num, Nat.ofDigits_append, Nat.ofDigits_singleton]

theorem num_lt (hV : 1 < V) {ls : List ℕ} (h : ∀ x ∈ ls, x < V) : num V ls < V ^ ls.length :=
  Nat.ofDigits_lt_base_pow_length hV h

/-- **One more limb.** The result is exact if and only if it was so far and the
limb leaves the right carry. -/
theorem Exact.snoc_iff (hV : 1 < V) (hab : as.length = bs.length) (har : as.length = rs.length)
    (has : ∀ x ∈ as, x < V) (hbs : ∀ x ∈ bs, x < V) (hrs : ∀ x ∈ rs, x < V) {a b : ℕ} {c c' : Bool}
    (ha : a < V) (hb : b < V) :
    Exact op V (as ++ [a]) (bs ++ [b]) (rs ++ [op.digit V a b c]) c' ↔
      Exact op V as bs rs c ∧ c' = op.carry V a b c := by
  have hA := num_lt hV has
  have hB := num_lt hV hbs
  have hR := num_lt hV hrs
  rw [← hab] at hB
  rw [← har] at hR
  have hW : 0 < V ^ as.length := Nat.pow_pos (by omega)
  obtain ⟨hdigit, hcarry⟩ := op.concat (a := a) (c := false) hW hA hB hb
  set W := V ^ as.length with hWdef
  set k := op.carry W (num V as) (num V bs) false
  have hvalue : num V (rs ++ [op.digit V a b c]) = num V rs + W * op.digit V a b c := by
    rw [num_snoc, ← har]
  have htarget : op.digit (V ^ (as ++ [a]).length) (num V (as ++ [a])) (num V (bs ++ [b])) false =
      op.digit W (num V as) (num V bs) false + W * op.digit V a b k := by
    rw [num_snoc, num_snoc, ← hab, List.length_append, List.length_singleton, pow_succ, hdigit]
  have htargetc : op.carry (V ^ (as ++ [a]).length) (num V (as ++ [a])) (num V (bs ++ [b])) false =
      op.carry V a b k := by
    rw [num_snoc, num_snoc, ← hab, List.length_append, List.length_singleton, pow_succ, hcarry]
  constructor
  · rintro ⟨hv, hc⟩
    rw [hvalue, htarget] at hv
    rw [htargetc] at hc
    have hlt := op.digit_lt (a := num V as) (b := num V bs) (c := false) hW
    -- the limbs before and this one are both right
    have hlow : num V rs = op.digit W (num V as) (num V bs) false := by
      have := congrArg (· % W) hv
      simpa only [Nat.add_mul_mod_self_left, Nat.mod_eq_of_lt hR, Nat.mod_eq_of_lt hlt] using this
    have hhigh : op.digit V a b c = op.digit V a b k := by
      rw [hlow, Nat.add_left_cancel_iff] at hv
      exact Nat.eq_of_mul_eq_mul_left hW hv
    have hck : c = k := op.digit_inj hV ha hb hhigh
    exact ⟨⟨hlow, hck⟩, by rw [hc, hck]⟩
  · rintro ⟨⟨hv, hc⟩, hc'⟩
    have hck : c = k := hc
    refine ⟨?_, ?_⟩
    · rw [hvalue, htarget, hv, hck]
    · rw [htargetc, hc', hck]

/-- The first limb has no carry in. -/
theorem Exact.single_iff {a b : ℕ} {c' : Bool} :
    Exact op V [a] [b] [op.digit V a b false] c' ↔ c' = op.carry V a b false := by
  have hone : ∀ x, num V [x] = x := fun x => Nat.ofDigits_singleton
  constructor
  · intro h
    simpa [hone] using h.carry
  · intro h
    exact ⟨by simp [hone], by simpa [hone] using h⟩

end Exact

/-! ### A carry found by comparing -/

section Compare

variable {V a b : ℕ} {c : Bool}

/-- The sum is below the first operand when there is a carry, unless the second
one is all ones and there is a carry in. -/
theorem add_compare_iff (ha : a < V) (hb : b < V) :
    decide (Op.add.digit V a b c < a) = Op.add.carry V a b c ↔ ¬ (c = true ∧ b + 1 = V) := by
  have h := add_eq (c := c) ha hb
  have hlt := Op.add.digit_lt (a := a) (b := b) (c := c) (by omega : 0 < V)
  cases c <;> cases hk : Op.add.carry V a b _ <;>
    simp only [hk, Bool.toNat_true, Bool.toNat_false, decide_eq_true_eq, decide_eq_false_iff_not,
      Bool.false_eq_true, true_and, false_and, not_false_eq_true, iff_true] at h ⊢ <;> omega

/-- The first operand is below the second one and the borrow in, below `V`, when
there is a borrow, unless the second one is all ones and there is a borrow in. -/
theorem sub_compare_iff (ha : a < V) (hb : b < V) :
    decide (a < (b + c.toNat) % V) = Op.sub.carry V a b c ↔ ¬ (c = true ∧ b + 1 = V) := by
  have hc := Bool.toNat_le c
  by_cases hbc : b + c.toNat < V
  · rw [Nat.mod_eq_of_lt hbc, Op.carry]
    refine iff_of_true rfl ?_
    rintro ⟨rfl, hb1⟩
    rw [Bool.toNat_true] at hbc
    omega
  · have hctrue : c = true := by
      cases c
      · rw [Bool.toNat_false] at hbc
        omega
      · rfl
    subst hctrue
    rw [Bool.toNat_true] at hbc
    have hb1 : b + 1 = V := by omega
    simp [Op.carry, hb1, ha]

end Compare

end Limbs
