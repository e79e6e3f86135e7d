/-
# Infix expressions

Expressions with unary and binary operators and with their parentheses, over any
atoms and operators. An expression is proper for a priority of the binary
operators if its shape is the one that the priority and grouping from the left
give to its items: `a - b - c` is `(a - b) - c`. For a coarser priority the same
items have another shape, `regroup`. Whatever the shape of an expression, its items
have a proper one, `shape`.

Key definitions: `Infix`, `Infix.items`, `Infix.parts`, `Infix.Proper`, `Infix.regroup`,
`Infix.shape`.
Key theorems: `items_regroup`, `proper_regroup`, `regroup_of_proper`, `items_shape`,
`proper_shape`, `items_alternate`.
-/
import Mathlib.Data.List.Chain
import Mathlib.Data.Nat.Notation
import Mathlib.Tactic.Common

/-- Expressions. -/
inductive Infix (α υ β : Type) where
  | atom (a : α)
  | paren (e : Infix α υ β)
  | unary (u : υ) (e : Infix α υ β)
  | binary (o : β) (l r : Infix α υ β)

namespace Infix

variable {α υ β : Type}

/-- What an expression is written with. -/
inductive Item (α υ β : Type) where
  | atom (a : α)
  | unary (u : υ)
  | binary (o : β)
  | lpar
  | rpar

/-- An expression as it is written. -/
def items : Infix α υ β → List (Item α υ β)
  | atom a => [.atom a]
  | paren e => .lpar :: (items e ++ [.rpar])
  | unary u e => .unary u :: items e
  | binary o l r => items l ++ .binary o :: items r

/-- The expressions in its parentheses, at any depth. -/
def parts : Infix α υ β → List (Infix α υ β)
  | atom _ => []
  | paren e => e :: parts e
  | unary _ e => parts e
  | binary _ l r => parts l ++ parts r

/-- What is in parentheses is written inside. -/
theorem infix_items {e p : Infix α υ β} (h : p ∈ parts e) : items p <:+: items e := by
  induction e with
  | atom a => exact (List.not_mem_nil h).elim
  | paren e ih =>
    have hin : items e <:+: items (paren e) := ⟨[.lpar], [.rpar], rfl⟩
    rcases List.mem_cons.mp h with rfl | h
    · exact hin
    · exact (ih h).trans hin
  | unary u e ih => exact (ih h).trans (List.suffix_cons _ _).isInfix
  | binary o l r ihl ihr =>
    rcases List.mem_append.mp h with h | h
    · exact (ihl h).trans (List.prefix_append _ _).isInfix
    · exact (ihr h).trans ((List.suffix_cons _ _).trans (List.suffix_append _ _)).isInfix

theorem parts_trans {e p q : Infix α υ β} (hp : p ∈ parts e) (hq : q ∈ parts p) : q ∈ parts e := by
  induction e with
  | atom a => exact (List.not_mem_nil hp).elim
  | paren e ih =>
    rcases List.mem_cons.mp hp with rfl | hp
    · exact List.mem_cons_of_mem _ hq
    · exact List.mem_cons_of_mem _ (ih hp)
  | unary u e ih => exact ih hp
  | binary o l r ihl ihr =>
    rcases List.mem_append.mp hp with hp | hp
    · exact List.mem_append_left _ (ihl hp)
    · exact List.mem_append_right _ (ihr hp)

/-! ### Priorities -/

section Proper

variable (prio : β → ℕ)

/-- Not a binary operator with a priority below `k`. -/
def Above (k : ℕ) : Infix α υ β → Prop
  | binary o _ _ => k ≤ prio o
  | _ => True

/-- Not a binary operator. -/
def Tight : Infix α υ β → Prop
  | binary _ _ _ => False
  | _ => True

/-- The shape is that of the items under the priority, grouped from the left. -/
def Proper : Infix α υ β → Prop
  | atom _ => True
  | paren e => Proper e
  | unary _ e => Tight e ∧ Proper e
  | binary o l r => Above prio (prio o) l ∧ Above prio (prio o + 1) r ∧ Proper l ∧ Proper r

/-- An operand and an operator, put before an expression. -/
def join (o : β) (l : Infix α υ β) : Infix α υ β → Infix α υ β
  | binary o' a b => if prio o' ≤ prio o then binary o' (join o l a) b else binary o l (binary o' a b)
  | r => binary o l r

/-- The shape under the priority. -/
def regroup : Infix α υ β → Infix α υ β
  | atom a => atom a
  | paren e => paren (regroup e)
  | unary u e => unary u (regroup e)
  | binary o l r => join prio o (regroup l) (regroup r)

end Proper

section Regroup

variable {prio prio' : β → ℕ} {o : β} {k k' : ℕ} {e l r : Infix α υ β}

theorem Above.mono (h : Above prio k e) (hk : k' ≤ k) : Above prio k' e := by
  cases e <;> first | trivial | exact hk.trans h

theorem Tight.above (h : Tight e) : Above prio k e := by
  cases e <;> trivial

/-- What is in parentheses is proper as well. -/
theorem Proper.part {p : Infix α υ β} (h : Proper prio e) (hp : p ∈ parts e) : Proper prio p := by
  induction e with
  | atom a => exact (List.not_mem_nil hp).elim
  | paren e ih =>
    rcases List.mem_cons.mp hp with rfl | hp
    · exact h
    · exact ih h hp
  | unary u e ih => exact ih h.2 hp
  | binary o l r ihl ihr =>
    rcases List.mem_append.mp hp with hp | hp
    · exact ihl h.2.2.1 hp
    · exact ihr h.2.2.2 hp

theorem items_join : items (join prio o l r) = items l ++ .binary o :: items r := by
  induction r with
  | binary o' a b iha =>
    unfold join
    split_ifs
    · simp [items, iha]
    · rfl
  | _ => rfl

/-- Regrouping does not change what is written. -/
theorem items_regroup : items (regroup prio e) = items e := by
  induction e with
  | atom a => rfl
  | paren e ih => simp [regroup, items, ih]
  | unary u e ih => simp [regroup, items, ih]
  | binary o l r ihl ihr => simp [regroup, items_join, items, ihl, ihr]

theorem above_join (hr : Above prio (prio o) r) (hk : k ≤ prio o) : Above prio k (join prio o l r) := by
  cases r with
  | binary o' a b =>
    unfold join
    split_ifs
    · exact hk.trans hr
    · exact hk
  | _ => exact hk

theorem proper_join (hl : Proper prio l) (hr : Proper prio r) (hal : Above prio (prio o) l)
    (har : Above prio (prio o) r) : Proper prio (join prio o l r) := by
  induction r with
  | binary o' a b iha =>
    rcases hr with ⟨ha, hb, hpa, hpb⟩
    unfold join
    split_ifs with hle
    · have hle' : prio o ≤ prio o' := har
      exact ⟨above_join (ha.mono hle') hle, hb, iha hpa (ha.mono hle'), hpb⟩
    · exact ⟨hal, Nat.lt_of_not_le hle, hl, ha, hb, hpa, hpb⟩
  | _ => exact ⟨hal, trivial, hl, hr⟩

theorem join_of_above (h : Above prio (prio o + 1) r) : join prio o l r = binary o l r := by
  cases r with
  | binary o' a b =>
    have hlt : prio o < prio o' := h
    unfold join
    rw [if_neg (Nat.not_le_of_lt hlt)]
  | _ => rfl

/-- An expression that is proper keeps its shape. -/
theorem regroup_of_proper (h : Proper prio e) : regroup prio e = e := by
  induction e with
  | atom a => rfl
  | paren e ih => rw [regroup, ih h]
  | unary u e ih => rw [regroup, ih h.2]
  | binary o l r ihl ihr =>
    rcases h with ⟨-, hr, hpl, hpr⟩
    rw [regroup, ihl hpl, ihr hpr, join_of_above hr]

theorem Tight.regroup (h : Tight e) : Tight (regroup prio' e) := by
  cases e <;> trivial

section Coarser

variable (hmono : ∀ a b, prio a ≤ prio b → prio' a ≤ prio' b)

include hmono

theorem above_regroup (hp : Proper prio e) (hk : ∀ o, k ≤ prio o → k' ≤ prio' o) (h : Above prio k e) :
    Above prio' k' (regroup prio' e) := by
  induction e generalizing k k' with
  | binary o' l r _ ihr =>
    rcases hp with ⟨-, hr, -, hpr⟩
    exact above_join (ihr hpr (hmono o') (hr.mono (Nat.le_succ _))) (hk o' h)
  | _ => trivial

/-- At an operator that keeps its place below those of its right operand, regrouping
changes the operands only. -/
theorem regroup_binary (hp : Proper prio (binary o l r))
    (ho : ∀ o', prio o + 1 ≤ prio o' → prio' o + 1 ≤ prio' o') :
    regroup prio' (binary o l r) = binary o (regroup prio' l) (regroup prio' r) :=
  join_of_above (above_regroup hmono hp.2.2.2 ho hp.2.1)

/-- **The shape under a coarser priority** is proper for it. -/
theorem proper_regroup (h : Proper prio e) : Proper prio' (regroup prio' e) := by
  induction e with
  | atom a => trivial
  | paren e ih => exact ih h
  | unary u e ih => exact ⟨h.1.regroup, ih h.2⟩
  | binary o l r ihl ihr =>
    rcases h with ⟨hl, hr, hpl, hpr⟩
    apply proper_join (ihl hpl) (ihr hpr)
    · exact above_regroup hmono hpl (hmono o) hl
    · exact above_regroup hmono hpr (hmono o) (hr.mono (Nat.le_succ _))

end Coarser

end Regroup

/-! ### The proper shape of any items -/

section Shape

variable (prio : β → ℕ)

/-- An operator and an operand, put after an expression. -/
def snoc (o : β) (p : Infix α υ β) : Infix α υ β → Infix α υ β
  | binary o' a b => if prio o ≤ prio o' then binary o (binary o' a b) p else binary o' a (snoc o p b)
  | l => binary o l p

/-- An operator and all operands of an expression, put after another one. -/
def glue (o : β) (l : Infix α υ β) : Infix α υ β → Infix α υ β
  | binary o' a b => glue o' (glue o l a) b
  | r => snoc prio o r l

/-- A unary operator, put before the first operand. -/
def attach (u : υ) : Infix α υ β → Infix α υ β
  | binary o a b => binary o (attach u a) b
  | e => unary u e

/-- The proper shape. -/
def shape : Infix α υ β → Infix α υ β
  | atom a => atom a
  | paren e => paren (shape e)
  | unary u e => attach u (shape e)
  | binary o l r => glue prio o (shape l) (shape r)

variable {prio} {o : β} {u : υ} {k : ℕ} {e l p r : Infix α υ β}

theorem items_snoc : items (snoc prio o p l) = items l ++ .binary o :: items p := by
  induction l with
  | binary o' a b _ ihb =>
    unfold snoc
    split_ifs
    · rfl
    · simp [items, ihb]
  | _ => rfl

theorem items_glue : items (glue prio o l r) = items l ++ .binary o :: items r := by
  induction r generalizing o l with
  | binary o' a b iha ihb => simp [glue, items, iha, ihb]
  | _ => exact items_snoc

theorem items_attach : items (attach u e) = .unary u :: items e := by
  induction e with
  | binary o a b iha _ => simp [attach, items, iha]
  | _ => rfl

/-- The items are the same. -/
theorem items_shape : items (shape prio e) = items e := by
  induction e with
  | atom a => rfl
  | paren e ih => simp [shape, items, ih]
  | unary u e ih => simp [shape, items, items_attach, ih]
  | binary o l r ihl ihr => simp [shape, items, items_glue, ihl, ihr]

theorem above_snoc (hl : Above prio k l) (hk : k ≤ prio o) : Above prio k (snoc prio o p l) := by
  cases l with
  | binary o' a b =>
    unfold snoc
    split_ifs
    · exact hk
    · exact hl
  | _ => exact hk

theorem proper_snoc (ht : Tight p) (hp : Proper prio p) (hl : Proper prio l) :
    Proper prio (snoc prio o p l) := by
  induction l with
  | binary o' a b _ ihb =>
    rcases hl with ⟨ha, hb, hpa, hpb⟩
    unfold snoc
    split_ifs with hle
    · exact ⟨hle, ht.above, ⟨ha, hb, hpa, hpb⟩, hp⟩
    · exact ⟨ha, above_snoc hb (Nat.lt_of_not_le hle), hpa, ihb hpb⟩
  | _ => exact ⟨trivial, ht.above, hl, hp⟩

theorem proper_glue (hl : Proper prio l) (hr : Proper prio r) : Proper prio (glue prio o l r) := by
  induction r generalizing o l with
  | binary o' a b iha ihb => exact ihb (iha hl hr.2.2.1) hr.2.2.2
  | _ => exact proper_snoc trivial hr hl

theorem above_attach (h : Above prio k e) : Above prio k (attach u e) := by
  cases e <;> trivial

theorem proper_attach (h : Proper prio e) : Proper prio (attach u e) := by
  induction e with
  | binary o a b iha _ =>
    rcases h with ⟨ha, hb, hpa, hpb⟩
    exact ⟨above_attach ha, hb, iha hpa, hpb⟩
  | _ => exact ⟨trivial, h⟩

/-- **The shape is proper**, whatever the expression. -/
theorem proper_shape (e : Infix α υ β) : Proper prio (shape prio e) := by
  induction e with
  | atom a => trivial
  | paren e ih => exact ih
  | unary u e ih => exact proper_attach ih
  | binary o l r ihl ihr => exact proper_glue ihl ihr

end Shape

/-! ### What stands next to what -/

/-- An operand can start with it. -/
def Item.starts : Item α υ β → Bool
  | .atom _ | .unary _ | .lpar => true
  | _ => false

/-- An operand can end with it. -/
def Item.ends : Item α υ β → Bool
  | .atom _ | .rpar => true
  | _ => false

theorem items_ne_nil (e : Infix α υ β) : items e ≠ [] := by
  cases e <;> simp [items]

theorem items_head (e : Infix α υ β) : ∃ i l, items e = i :: l ∧ i.starts = true := by
  induction e with
  | atom a => exact ⟨_, _, rfl, rfl⟩
  | paren e _ => exact ⟨_, _, rfl, rfl⟩
  | unary u e _ => exact ⟨_, _, rfl, rfl⟩
  | binary o l r ihl _ =>
    rcases ihl with ⟨i, t, h, hi⟩
    exact ⟨i, t ++ .binary o :: items r, by rw [items, h, List.cons_append], hi⟩

theorem items_last (e : Infix α υ β) : ∃ i l, items e = l ++ [i] ∧ i.ends = true := by
  induction e with
  | atom a => exact ⟨.atom a, [], rfl, rfl⟩
  | paren e _ => exact ⟨.rpar, .lpar :: items e, rfl, rfl⟩
  | unary u e ih =>
    rcases ih with ⟨i, t, h, hi⟩
    exact ⟨i, .unary u :: t, by rw [items, h, List.cons_append], hi⟩
  | binary o l r _ ihr =>
    rcases ihr with ⟨i, t, h, hi⟩
    exact ⟨i, items l ++ .binary o :: t, by rw [items, h, List.append_assoc, List.cons_append], hi⟩

/-- After an operand stands what does not start one, and the other way round. -/
def Alternate (i j : Item α υ β) : Prop := i.ends = !j.starts

/-- Operands and operators alternate. -/
theorem items_alternate (e : Infix α υ β) : List.IsChain Alternate (items e) := by
  induction e with
  | atom a => exact List.isChain_singleton _
  | paren e ih =>
    rcases items_head e with ⟨i, t, hhead, hi⟩
    rcases items_last e with ⟨j, t', hlast, hj⟩
    refine List.isChain_cons.mpr ⟨?_, List.isChain_append.mpr ⟨ih, List.isChain_singleton _, ?_⟩⟩
    · simp [hhead, Alternate, hi, Item.ends]
    · simp [hlast, Alternate, hj, Item.starts]
  | unary u e ih =>
    rcases items_head e with ⟨i, t, hhead, hi⟩
    refine List.isChain_cons.mpr ⟨?_, ih⟩
    simp [hhead, Alternate, hi, Item.ends]
  | binary o l r ihl ihr =>
    rcases items_head r with ⟨i, t, hhead, hi⟩
    rcases items_last l with ⟨j, t', hlast, hj⟩
    refine List.isChain_append.mpr ⟨ihl, List.isChain_cons.mpr ⟨?_, ihr⟩, ?_⟩
    · simp [hhead, Alternate, hi, Item.ends]
    · simp [hlast, Alternate, hj, Item.starts]

end Infix
