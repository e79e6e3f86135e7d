/-
# Layers of paint

A layer gives some points a colour and leaves the others as they are. Layers are
put one over the other; a loop whose body puts a layer on puts all of them on,
and what is last covers what was before.

Key definitions: `paint`, `dot`, `region`, `layers`, `paintList`.
Key theorems: `paint_paint`, `paint_dot`, `foldlM_paint`, `layers_region`, `layers_eq_of_unique`.
-/
import Mathlib.Data.Nat.Notation
import Mathlib.Logic.Function.Basic
import Mathlib.Tactic.Common

namespace Overlay

variable {P C α ε : Type}

/-- A layer over what was there. -/
def paint (f : P → Option C) (v : P → C) : P → C := fun p => (f p).getD (v p)

/-- A layer over another one. -/
def stack (g f : P → Option C) : P → Option C := fun p => (g p).or (f p)

/-- One point. -/
def dot [DecidableEq P] (p : P) (c : C) : P → Option C := fun q => if q = p then some c else none

/-- Some points in one colour. -/
def region (s : P → Bool) (c : C) : P → Option C := fun p => bif s p then some c else none

/-- The layers of a list, the last one on top. -/
def layers (f : α → P → Option C) : List α → P → Option C
  | [] => fun _ => none
  | a :: l => stack (layers f l) (f a)

@[simp] theorem paint_none (v : P → C) : paint (fun _ => none) v = v := rfl

@[simp] theorem paint_paint (g f : P → Option C) (v : P → C) : paint g (paint f v) = paint (stack g f) v := by
  funext p
  unfold paint stack
  cases g p <;> rfl

theorem paint_dot [DecidableEq P] (p : P) (c : C) (v : P → C) : paint (dot p c) v = Function.update v p c := by
  funext q
  unfold paint dot
  by_cases h : q = p
  · rw [if_pos h, h, Function.update_self]
    rfl
  · rw [if_neg h, Function.update_of_ne h]
    rfl

theorem stack_assoc (h g f : P → Option C) : stack (stack h g) f = stack h (stack g f) := by
  funext p
  unfold stack
  cases h p <;> rfl

@[simp] theorem stack_none (f : P → Option C) : stack f (fun _ => none) = f := by
  funext p
  unfold stack
  cases f p <;> rfl

@[simp] theorem none_stack (f : P → Option C) : stack (fun _ => none) f = f := rfl

theorem layers_append (f : α → P → Option C) (l l' : List α) :
    layers f (l ++ l') = stack (layers f l') (layers f l) := by
  induction l with
  | nil => rw [List.nil_append, layers, stack_none]
  | cons a l ih => rw [List.cons_append, layers, ih, layers, stack_assoc]

/-- **A loop whose body puts a layer on.** -/
theorem foldlM_paint {step : (P → C) → α → Except ε (P → C)} {f : α → P → Option C} {l : List α}
    (h : ∀ a ∈ l, ∀ v, step v a = .ok (paint (f a) v)) (v : P → C) :
    l.foldlM step v = .ok (paint (layers f l) v) := by
  induction l generalizing v with
  | nil => rfl
  | cons a l ih =>
    rw [List.forall_mem_cons] at h
    have hstep : (a :: l).foldlM step v = l.foldlM step (paint (f a) v) := by
      rw [List.foldlM_cons, h.1]
      rfl
    rw [hstep, ih h.2, paint_paint, layers]

/-- Layers of one colour are a layer of that colour. -/
theorem layers_region (s : α → P → Bool) (c : C) (l : List α) :
    layers (fun a => region (s a) c) l = region (fun p => l.any fun a => s a p) c := by
  induction l with
  | nil => rfl
  | cons a l ih =>
    rw [layers, ih]
    funext p
    unfold stack region
    dsimp only
    rw [List.any_cons]
    cases s a p with
    | false => rw [cond_false, Option.or_none, Bool.false_or]
    | true =>
      rw [Bool.true_or]
      cases l.any fun a => s a p <;> rfl

/-- A point that no layer of the list gives a colour. -/
theorem layers_eq_none {f : α → P → Option C} {l : List α} {p : P} (h : ∀ a ∈ l, f a p = none) : layers f l p = none := by
  induction l with
  | nil => rfl
  | cons a l ih =>
    rw [List.forall_mem_cons] at h
    rw [layers, stack, ih h.2, h.1]
    rfl

/-- A point that one layer only gives a colour. -/
theorem layers_eq_of_unique {f : α → P → Option C} {l : List α} {p : P} {a : α} (ha : a ∈ l)
    (h : ∀ b ∈ l, b ≠ a → f b p = none) : layers f l p = f a p := by
  induction l with
  | nil => exact absurd ha List.not_mem_nil
  | cons b l ih =>
    rw [List.forall_mem_cons] at h
    rw [layers, stack]
    by_cases hl : a ∈ l
    · rw [ih hl h.2]
      by_cases hb : b = a
      · rw [hb, Option.or_self]
      · rw [h.1 hb, Option.or_none]
    · obtain rfl : a = b := (List.mem_cons.mp ha).resolve_right hl
      have hrest : layers f l p = none := layers_eq_none fun c hc => h.2 c hc fun heq => hl (heq ▸ hc)
      rw [hrest, Option.none_or]

/-! ### Arrays -/

/-- A layer over an array. -/
def paintList (f : ℕ → Option C) (v : List C) : List C := v.mapIdx fun i c => (f i).getD c

@[simp] theorem length_paintList (f : ℕ → Option C) (v : List C) : (paintList f v).length = v.length :=
  List.length_mapIdx

theorem getElem?_paintList (f : ℕ → Option C) (v : List C) (i : ℕ) : (paintList f v)[i]? = v[i]?.map fun c => (f i).getD c :=
  List.getElem?_mapIdx

theorem paintList_none (v : List C) : paintList (fun _ => none) v = v := by
  apply List.ext_getElem?
  intro i
  rw [getElem?_paintList]
  cases v[i]? <;> rfl

theorem paintList_paintList (g f : ℕ → Option C) (v : List C) : paintList g (paintList f v) = paintList (stack g f) v := by
  apply List.ext_getElem?
  intro i
  rw [getElem?_paintList, getElem?_paintList, getElem?_paintList, Option.map_map]
  congr 1
  funext c
  show (g i).getD ((f i).getD c) = ((g i).or (f i)).getD c
  cases g i <;> rfl

theorem paintList_dot (i : ℕ) (c : C) (v : List C) : paintList (dot i c) v = v.set i c := by
  apply List.ext_getElem?
  intro j
  rw [getElem?_paintList, List.getElem?_set]
  unfold dot
  by_cases h : j = i
  · subst h
    rw [if_pos rfl, if_pos rfl]
    by_cases hj : j < v.length
    · rw [if_pos hj, List.getElem?_eq_getElem hj]
      rfl
    · rw [if_neg hj, List.getElem?_eq_none (Nat.not_lt.mp hj)]
      rfl
  · rw [if_neg h, if_neg fun heq => h heq.symm]
    cases v[j]? <;> rfl

theorem dot_eq_region [DecidableEq P] (p : P) (c : C) : dot p c = region (fun q => decide (q = p)) c := by
  funext q
  unfold dot region
  rw [Bool.cond_decide]

end Overlay
