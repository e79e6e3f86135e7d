/-
# Memory with 32-bit addresses

One byte for each address, and accesses whose addresses wrap around at 2^32.
What was stored is loaded again, and a write leaves what is apart from it alone.

Key definitions: `Mem`, `In`, `Apart`, `peek`, `poke`, `StackIs`, `pushWords`, `bitAt`,
`Cleared`.
Key theorems: `peek_poke_self`, `peek_poke_apart`, `pushWords_stack`, `getLsbD_peek`,
`Cleared.frame_iff`.
-/
import Nemu.Lib.Bytes

namespace WordMem

open Bytes

abbrev Mem : Type := Word → Byte

/-- The address is one of the `len` from `a` on. -/
def In (a : Word) (len : ℕ) (x : Word) : Prop := (x - a).toNat < len

instance (a : Word) (len : ℕ) (x : Word) : Decidable (In a len x) :=
  inferInstanceAs (Decidable (_ < _))

/-- The bytes from `a` on, as a word. -/
def peek (f : Mem) (a : Word) (len : ℕ) : Word := word (fun i => f (a + BitVec.ofNat 32 i)) len

/-- The low bytes of `v` are stored from `a` on. -/
def poke (f : Mem) (a : Word) (len : ℕ) (v : Word) : Mem :=
  fun x => if (x - a).toNat < len then byte v (x - a).toNat else f x

/-- The two ranges share no address. -/
def Apart (a : Word) (la : ℕ) (b : Word) (lb : ℕ) : Prop := ∀ x, In a la x → ¬ In b lb x

variable {f g : Mem} {a b v x : Word} {la lb len : ℕ}

theorem poke_in (h : In a len x) : poke f a len v x = byte v (x - a).toNat := if_pos h

theorem poke_out (h : ¬ In a len x) : poke f a len v x = f x := if_neg h

theorem in_add {i : ℕ} (hi : i < len) (h4 : len ≤ 4) : In a len (a + BitVec.ofNat 32 i) := by
  unfold In
  rw [BitVec.add_comm, BitVec.add_sub_cancel, BitVec.toNat_ofNat]
  omega

/-- The address of a byte of a range. -/
theorem In.exists_add (h : In a len x) : ∃ i < len, x = a + BitVec.ofNat 32 i := by
  refine ⟨(x - a).toNat, h, ?_⟩
  rw [BitVec.ofNat_toNat, BitVec.setWidth_eq, BitVec.add_comm, BitVec.sub_add_cancel]

theorem peek_congr (h4 : len ≤ 4) (h : ∀ x, In a len x → f x = g x) : peek f a len = peek g a len :=
  word_congr fun _ hi => h _ (in_add hi h4)

/-- What was stored is loaded again, as far as it was stored. -/
theorem peek_poke_self (f : Mem) (a v : Word) (h4 : len ≤ 4) :
    peek (poke f a len v) a len = word (byte v) len := by
  refine word_congr fun i hi => ?_
  rw [poke_in (in_add hi h4), BitVec.add_comm, BitVec.add_sub_cancel, BitVec.toNat_ofNat,
    Nat.mod_eq_of_lt (by omega)]

/-- A write leaves a read apart from it alone. -/
theorem peek_poke_apart (h4 : lb ≤ 4) (h : Apart a la b lb) :
    peek (poke f a la v) b lb = peek f b lb :=
  peek_congr h4 fun _ hx => poke_out fun ha => h _ ha hx

theorem Apart.symm (h : Apart a la b lb) : Apart b lb a la := fun x hb ha => h x ha hb

/-! ### A stack in memory -/

/-- These words are on the stack, the first of them at the top. -/
def StackIs (f : Mem) : Word → List Word → Prop
  | _, [] => True
  | a, v :: vs => peek f a 4 = v ∧ StackIs f (a + 4) vs

theorem StackIs.congr {f g : Mem} : ∀ {vs : List Word} {a : Word}, 4 * vs.length ≤ 2 ^ 32 →
    (∀ x, In a (4 * vs.length) x → f x = g x) → StackIs f a vs → StackIs g a vs
  | [], _, _, _, _ => trivial
  | v :: vs, a, hlen, hfg, h => by
    simp only [List.length_cons] at hlen hfg
    refine ⟨?_, StackIs.congr (by omega) (fun x hx => hfg x ?_) h.2⟩
    · rw [← h.1]
      refine (peek_congr le_rfl fun x hx => hfg x ?_).symm
      unfold In at hx ⊢
      omega
    · unfold In at hx ⊢
      bv_omega

/-- One more word at the top. -/
theorem StackIs.push {f : Mem} {a v : Word} {vs : List Word} (hlen : 4 * (vs.length + 1) ≤ 2 ^ 32)
    (h : StackIs f a vs) : StackIs (poke f (a - 4) 4 v) (a - 4) (v :: vs) := by
  refine ⟨?_, ?_⟩
  · rw [peek_poke_self f (a - 4) v le_rfl, word_byte]
  · rw [BitVec.sub_add_cancel]
    refine h.congr (by omega) fun x hx => (poke_out ?_).symm
    unfold In at hx ⊢
    bv_omega

/-- A word is pushed on a stack: its top, and memory. -/
def pushWord (s : Word × Mem) (v : Word) : Word × Mem := (s.1 - 4, poke s.2 (s.1 - 4) 4 v)

/-- Words are pushed, in order. -/
def pushWords (s : Word × Mem) (vs : List Word) : Word × Mem := vs.foldl pushWord s

theorem pushWords_cons (s : Word × Mem) (v : Word) (vs : List Word) :
    pushWords s (v :: vs) = pushWords (pushWord s v) vs := rfl

theorem pushWords_top (s : Word × Mem) (vs : List Word) :
    (pushWords s vs).1 = s.1 - BitVec.ofNat 32 (4 * vs.length) := by
  induction vs generalizing s with
  | nil => exact (BitVec.sub_zero s.1).symm
  | cons v vs ih =>
    have h4 : BitVec.ofNat 32 (4 * (vs.length + 1)) = BitVec.ofNat 32 (4 * vs.length) + 4 := by
      rw [Nat.mul_succ, BitVec.ofNat_add]
      rfl
    rw [pushWords_cons, ih, List.length_cons, h4, pushWord]
    bv_omega

/-- They are on the stack then, the last one at the top. -/
theorem pushWords_stack {s : Word × Mem} {ws : List Word} (vs : List Word) (h : StackIs s.2 s.1 ws)
    (hlen : 4 * (vs.length + ws.length) ≤ 2 ^ 32) :
    StackIs (pushWords s vs).2 (pushWords s vs).1 (vs.reverse ++ ws) := by
  induction vs generalizing s ws with
  | nil => exact h
  | cons v vs ih =>
    rw [List.length_cons] at hlen
    have hpush : StackIs (pushWord s v).2 (pushWord s v).1 (v :: ws) := h.push (by omega)
    rw [pushWords_cons, List.reverse_cons, List.append_assoc]
    refine ih hpush ?_
    rwa [List.length_append, List.length_singleton, ← Nat.add_assoc]

/-- And memory is as before elsewhere. -/
theorem pushWords_out {s : Word × Mem} {vs : List Word} {x : Word} (hlen : 4 * vs.length ≤ 2 ^ 32)
    (hx : ¬ In (s.1 - BitVec.ofNat 32 (4 * vs.length)) (4 * vs.length) x) :
    (pushWords s vs).2 x = s.2 x := by
  induction vs generalizing s with
  | nil => rfl
  | cons v vs ih =>
    rw [List.length_cons] at hlen hx
    unfold In at hx
    rw [pushWords_cons, ih (by omega)]
    · refine poke_out ?_
      unfold In
      bv_omega
    · unfold In pushWord
      bv_omega

/-! ### Bit strings -/

/-- Bit `k` of the bit string at `a`, which goes on in both directions. -/
def bitAt (f : Mem) (a : Word) (k : ℤ) : Bool :=
  (f (a + BitVec.ofInt 32 (k / 8))).getLsbD (k % 8).toNat

theorem bitAt_add (f : Mem) (a : Word) (n k : ℤ) :
    bitAt f (a + BitVec.ofInt 32 n) k = bitAt f a (8 * n + k) := by
  have hdiv : (8 * n + k) / 8 = n + k / 8 := by omega
  have hmod : (8 * n + k) % 8 = k % 8 := by omega
  unfold bitAt
  rw [hdiv, hmod, BitVec.ofInt_add, BitVec.add_assoc]

/-- The bits of a word in memory. -/
theorem getLsbD_peek (f : Mem) (a : Word) {k : ℕ} (h4 : len ≤ 4) (hk : k < 8 * len) :
    (peek f a len).getLsbD k = bitAt f a k := by
  have hbyte := congrArg (fun b : Byte => b.getLsbD (k % 8))
    (byte_word (fun i => f (a + BitVec.ofNat 32 i)) len (k / 8) (by omega))
  simp only [getLsbD_byte] at hbyte
  rw [if_pos (by omega), decide_eq_true (Nat.mod_lt k (by norm_num)), Bool.true_and, Nat.div_add_mod]
    at hbyte
  rw [peek, hbyte, bitAt]
  norm_cast

/-! ### Memory that is overwritten with zeroes -/

/-- `g` is `f` with zeroes where `S` holds. -/
def Cleared (S : Word → Prop) (f g : Mem) : Prop := ∀ x, (S x → g x = 0) ∧ (¬ S x → g x = f x)

variable {S T D : Word → Prop} {h : Mem}

theorem cleared_poke (f : Mem) (a : Word) (len : ℕ) : Cleared (In a len) f (poke f a len 0) := by
  intro x
  refine ⟨fun hx => ?_, fun hx => poke_out hx⟩
  rw [poke_in hx]
  exact byte_zero _

theorem Cleared.trans (hS : Cleared S f g) (hT : Cleared T g h) :
    Cleared (fun x => S x ∨ T x) f h := by
  intro x
  refine ⟨fun hx => ?_, fun hx => ?_⟩
  · by_cases ht : T x
    · exact (hT x).1 ht
    · rw [(hT x).2 ht]
      exact (hS x).1 (hx.resolve_right ht)
  · rw [(hT x).2 fun ht => hx (.inr ht), (hS x).2 fun hs => hx (.inl hs)]

theorem Cleared.congr (hS : Cleared S f g) (hiff : ∀ x, S x ↔ T x) : Cleared T f g := fun x =>
  ⟨fun hx => (hS x).1 ((hiff x).mpr hx), fun hx => (hS x).2 fun hs => hx ((hiff x).mp hs)⟩

/-- Nothing outside `D` changes if and only if it was zero where it is cleared. -/
theorem Cleared.frame_iff (hS : Cleared S g h) (hD : ∀ x, ¬ D x → g x = f x) :
    (∀ x, ¬ D x → h x = f x) ↔ ∀ x, S x → ¬ D x → f x = 0 := by
  refine forall_congr' fun x => ⟨fun hx hs hd => ?_, fun hx hd => ?_⟩
  · rw [← hx hd]
    exact (hS x).1 hs
  · by_cases hs : S x
    · rw [(hS x).1 hs, hx hs hd]
    · rw [(hS x).2 hs, hD x hd]

end WordMem
