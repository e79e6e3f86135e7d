/-
# Linked lists

Nodes with a `next` field, as a function from a node to the next one, if any.
`Seg next a l b`: from `a` one passes the nodes `l` and comes to `b`; with
`b = none` it is a whole list that ends with a null pointer. What a segment is
depends on the `next` fields of its own nodes only (`Seg.congr`), so that
changing one link is cutting the segment there and putting it together again.

Key definitions: `Seg`.
Key theorems: `Seg.append`, `Seg.congr`, `Seg.unique`, `Seg.concat`, `Seg.unlink`.
-/
import Mathlib.Data.List.Basic

variable {ι : Type}

/-- From `a` through the nodes `l` to `b`. -/
def Seg (next : ι → Option ι) : Option ι → List ι → Option ι → Prop
  | a, [], b => a = b
  | a, i :: l, b => a = some i ∧ Seg next (next i) l b

namespace Seg

/-- Following a list. -/
def decide [DecidableEq ι] (next : ι → Option ι) : ∀ (l : List ι) (a b : Option ι), Decidable (Seg next a l b)
  | [], a, b => inferInstanceAs (Decidable (a = b))
  | i :: l, a, b => @instDecidableAnd _ _ (inferInstanceAs (Decidable (a = some i))) (decide next l (next i) b)

instance [DecidableEq ι] (next : ι → Option ι) (a : Option ι) (l : List ι) (b : Option ι) :
    Decidable (Seg next a l b) := decide next l a b

variable {next next' : ι → Option ι} {a b c : Option ι} {l l' : List ι} {i n x : ι}

@[simp] theorem nil_iff : Seg next a [] b ↔ a = b := Iff.rfl

@[simp] theorem cons_iff : Seg next a (i :: l) b ↔ a = some i ∧ Seg next (next i) l b := Iff.rfl

/-- Two segments, one after the other. -/
theorem append : Seg next a (l ++ l') c ↔ ∃ b, Seg next a l b ∧ Seg next b l' c := by
  induction l generalizing a with
  | nil => simp
  | cons i l ih =>
    simp only [List.cons_append, cons_iff, ih]
    constructor
    · rintro ⟨ha, b, hl, hl'⟩
      exact ⟨b, ⟨ha, hl⟩, hl'⟩
    · rintro ⟨b, ⟨ha, hl⟩, hl'⟩
      exact ⟨ha, b, hl, hl'⟩

/-- Only the links of its own nodes matter. -/
theorem congr (h : Seg next a l b) (heq : ∀ i ∈ l, next' i = next i) : Seg next' a l b := by
  induction l generalizing a with
  | nil => exact h
  | cons i l ih =>
    obtain ⟨ha, hl⟩ := h
    refine ⟨ha, ?_⟩
    rw [heq i (List.mem_cons_self ..)]
    exact ih hl fun j hj => heq j (List.mem_cons_of_mem _ hj)

/-- A whole list is determined by its head. -/
theorem unique (h : Seg next a l none) (h' : Seg next a l' none) : l = l' := by
  induction l generalizing a l' with
  | nil =>
    obtain rfl : a = none := h
    cases l' with
    | nil => rfl
    | cons j l' => exact nomatch h'.1
  | cons i l ih =>
    obtain ⟨rfl, hl⟩ := h
    cases l' with
    | nil => exact nomatch (nil_iff.mp h')
    | cons j l' =>
      obtain ⟨hj, hl'⟩ := h'
      obtain rfl := Option.some.inj hj
      rw [ih hl hl']

/-- The last node is linked to what comes next. -/
theorem next_last (h : Seg next a (l ++ [x]) b) : next x = b := by
  obtain ⟨c, -, hc⟩ := append.mp h
  exact hc.2

/-- A node is put at the end. -/
theorem concat (h : Seg next a (l ++ [x]) none) (hl : ∀ i ∈ l, next' i = next i)
    (hx : next' x = some n) (hn : next' n = none) : Seg next' a (l ++ [x] ++ [n]) none := by
  obtain ⟨c, hseg, hc⟩ := append.mp h
  refine append.mpr ⟨some n, append.mpr ⟨c, hseg.congr hl, hc.1, hx⟩, rfl, hn⟩

/-- A node is taken out. -/
theorem unlink (h : Seg next a (l ++ x :: n :: l') none) (hl : ∀ i ∈ l, next' i = next i)
    (hl' : ∀ i ∈ l', next' i = next i) (hx : next' x = next n) :
    Seg next' a (l ++ x :: l') none := by
  obtain ⟨c, hseg, hc, hn, hrest⟩ := append.mp h
  refine append.mpr ⟨c, hseg.congr hl, hc, ?_⟩
  rw [hx]
  exact hrest.congr hl'

end Seg
