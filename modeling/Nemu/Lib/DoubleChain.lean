/-
# Doubly linked lists

Nodes with a `next` and a `prev` field. `DList next prev a l`: from `a` one passes
the nodes `l`, all different, and comes to the end; the `prev` field of each of
them is the node before it, if any. A node is put at the front, or taken out
wherever it is, by changing the links next to it.

Key definitions: `Back`, `DList`, `bypass`.
Key theorems: `DList.congr`, `DList.cons`, `DList.remove`.
-/
import Nemu.Lib.Chain
import Mathlib.Data.List.Basic
import Mathlib.Logic.Function.Basic

variable {ι : Type}

/-- The `prev` fields of the nodes `l` go back, that of the first one to `p`. -/
def Back (prev : ι → Option ι) : Option ι → List ι → Prop
  | _, [] => True
  | p, i :: l => prev i = p ∧ Back prev (some i) l

namespace Back

variable {prev prev' : ι → Option ι} {p : Option ι} {l l' : List ι} {i : ι}

@[simp] theorem nil (prev : ι → Option ι) (p : Option ι) : Back prev p [] := trivial

@[simp] theorem cons_iff : Back prev p (i :: l) ↔ prev i = p ∧ Back prev (some i) l := Iff.rfl

/-- Two lists, one after the other. -/
theorem append : Back prev p (l ++ l') ↔ Back prev p l ∧ Back prev (l.getLast?.or p) l' := by
  induction l generalizing p with
  | nil => simp
  | cons i l ih =>
    have hlast : (i :: l).getLast?.or p = l.getLast?.or (some i) := by
      cases l with
      | nil => rfl
      | cons j l => simp [List.getLast?_cons]
    rw [List.cons_append, cons_iff, cons_iff, ih, hlast, and_assoc]

/-- Only the links of its own nodes matter. -/
theorem congr (h : Back prev p l) (heq : ∀ i ∈ l, prev' i = prev i) : Back prev' p l := by
  induction l generalizing p with
  | nil => trivial
  | cons i l ih =>
    exact ⟨(heq i List.mem_cons_self).trans h.1, ih h.2 fun j hj => heq j (List.mem_cons_of_mem _ hj)⟩

end Back

/-- A whole list, from `a` on. -/
structure DList (next prev : ι → Option ι) (a : Option ι) (l : List ι) : Prop where
  seg : Seg next a l none
  back : Back prev none l
  nodup : l.Nodup

namespace DList

variable {next next' prev prev' : ι → Option ι} {a : Option ι} {l pre post : List ι} {x h : ι}

theorem nil (next prev : ι → Option ι) : DList next prev none [] := ⟨rfl, trivial, List.nodup_nil⟩

theorem congr (hl : DList next prev a l) (hnext : ∀ i ∈ l, next' i = next i)
    (hprev : ∀ i ∈ l, prev' i = prev i) : DList next' prev' a l :=
  ⟨hl.seg.congr hnext, hl.back.congr hprev, hl.nodup⟩

theorem head_eq (hl : DList next prev a l) : a = l.head? := by
  cases l with
  | nil => exact hl.seg
  | cons i l => exact hl.seg.1

/-- A node is put at the front. -/
theorem cons [DecidableEq ι] (hl : DList next prev (some h) l) (hx : x ∉ l) :
    DList (Function.update next x (some h)) (Function.update (Function.update prev x none) h (some x))
      (some x) (x :: l) := by
  obtain ⟨hseg, hback, hnodup⟩ := hl
  cases l with
  | nil => exact nomatch (Seg.nil_iff.mp hseg)
  | cons i t =>
    obtain rfl := Option.some.inj hseg.1
    have hxh : x ≠ h := by
      rintro rfl
      exact hx List.mem_cons_self
    have hh : h ∉ t := (List.nodup_cons.mp hnodup).1
    refine ⟨⟨rfl, ?_⟩, ⟨?_, ?_, ?_⟩, List.nodup_cons.mpr ⟨hx, hnodup⟩⟩
    · have hother : ∀ i ∈ h :: t, Function.update next x (some h) i = next i := by
        intro i hi
        refine Function.update_of_ne ?_ _ _
        rintro rfl
        exact hx hi
      rw [Function.update_self]
      exact hseg.congr hother
    · rw [Function.update_of_ne hxh, Function.update_self]
    · rw [Function.update_self]
    · refine hback.2.congr fun i hi => ?_
      have hih : i ≠ h := fun he => hh (he ▸ hi)
      have hix : i ≠ x := fun he => hx (he ▸ List.mem_cons_of_mem _ hi)
      rw [Function.update_of_ne hih, Function.update_of_ne hix]

/-- The `next` field of `x` is what follows it, and its `prev` field what is before. -/
theorem links (hl : DList next prev a (pre ++ x :: post)) :
    next x = post.head? ∧ prev x = pre.getLast? := by
  obtain ⟨b, -, -, hpost⟩ := Seg.append.mp hl.seg
  obtain ⟨-, hx, -⟩ := Back.append.mp hl.back
  refine ⟨?_, by rw [hx, Option.or_none]⟩
  cases post with
  | nil => exact hpost
  | cons i post => exact hpost.1

/-- The field of `i`, if there is one, is set. -/
def bypass [DecidableEq ι] (f : ι → Option ι) (i v : Option ι) : ι → Option ι :=
  match i with
  | some i => Function.update f i v
  | none => f

/-- **A node is taken out.** The nodes next to it are linked to each other; the list
begins after it if it was the first one. -/
theorem remove [DecidableEq ι] (hl : DList next prev a (pre ++ x :: post)) :
    DList (bypass next (prev x) (next x)) (bypass prev (next x) (prev x))
      (if some x = a then next x else a) (pre ++ post) := by
  obtain ⟨hnextx, hprevx⟩ := hl.links
  obtain ⟨hpre, hpost, hne⟩ := List.nodup_append.mp hl.nodup
  have hdisj : ∀ i ∈ pre, i ∉ x :: post := fun i hi hi' => hne i hi i hi' rfl
  obtain ⟨hxpost, hpost⟩ := List.nodup_cons.mp hpost
  have hxpre : x ∉ pre := fun hx => hdisj x hx List.mem_cons_self
  refine ⟨?_, ?_, ?_⟩
  · rcases pre.eq_nil_or_concat with rfl | ⟨l, y, rfl⟩
    · have ha : some x = a := hl.seg.1.symm
      rw [hprevx, if_pos ha]
      exact hl.seg.2
    · have ha : some x ≠ a := by
        rw [hl.head_eq]
        intro he
        refine hxpre (List.mem_of_mem_head? ?_)
        cases l with
        | nil => simpa using he.symm
        | cons i l => simpa using he.symm
      have hy : ∀ i, i ≠ y → Function.update next y (next x) i = next i := fun i hi => Function.update_of_ne hi _ _
      have hyl : y ∉ l := by
        rw [List.concat_eq_append] at hpre
        exact fun hyl => (List.nodup_append.mp hpre).2.2 y hyl y (List.mem_singleton_self y) rfl
      have hypost : y ∉ post := fun hy => hdisj y (by simp) (List.mem_cons_of_mem _ hy)
      rw [hprevx, if_neg ha]
      simp only [List.concat_eq_append, List.getLast?_append, List.append_assoc, List.singleton_append] at hl ⊢
      exact hl.seg.unlink (fun i hi => hy i fun he => hyl (he ▸ hi)) (fun i hi => hy i fun he => hypost (he ▸ hi))
        (Function.update_self ..)
  · obtain ⟨hback, hx, hrest⟩ := Back.append.mp hl.back
    rw [hnextx]
    cases post with
    | nil =>
      rw [List.append_nil]
      exact hback
    | cons j t =>
      have hj : ∀ i, i ≠ j → Function.update prev j (prev x) i = prev i := fun i hi => Function.update_of_ne hi _ _
      refine Back.append.mpr ⟨hback.congr fun i hi => hj i fun he => ?_, ?_, ?_⟩
      · exact hdisj i hi (he ▸ List.mem_cons_of_mem _ List.mem_cons_self)
      · exact (Function.update_self ..).trans hx
      · exact hrest.2.congr fun i hi => hj i fun he => (List.nodup_cons.mp hpost).1 (he ▸ hi)
  · exact hl.nodup.sublist ((List.sublist_cons_self x post).append_left pre)

end DList
