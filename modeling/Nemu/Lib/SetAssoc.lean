/-
# The tags of a set-associative cache

A cache has sets of ways, and a way holds a tag or is free. A lookup takes the
first way of a set that holds the tag, and a tag that was not found is put into
some way of its set. No set then ever holds a tag twice, so that the lookup
finds the only way that holds it, and a set that is asked for no more tags than
it has ways has a free way for each that it misses.

Key definitions: `Tags`, `find`, `free`, `install`, `Unique`.
Key theorems: `Unique.find_eq_some_iff`, `Unique.install`, `Unique.free_isSome`.
-/
import Mathlib.Data.Finset.Card
import Mathlib.Data.Finset.Dedup
import Mathlib.Tactic.Common

namespace SetAssoc

variable {γ ω τ α : Type}

/-- The tag that each way of each set holds, if any. -/
abbrev Tags (γ ω τ : Type) := γ → ω → Option τ

/-- No set holds a tag in two of its ways. -/
def Unique (ways : List ω) (d : Tags γ ω τ) : Prop :=
  ∀ g t, ∀ x ∈ ways, ∀ y ∈ ways, d g x = some t → d g y = some t → x = y

/-- The first of the ways that is free. -/
def free (ways : List ω) (d : Tags γ ω τ) (g : γ) : Option ω := ways.find? fun x => (d g x).isNone

theorem isNone_of_free {ways : List ω} {d : Tags γ ω τ} {g : γ} {x : ω} (h : free ways d g = some x) : d g x = none := by
  have hx := List.find?_some h
  simpa using hx

/-- Nothing is held before the first install. -/
theorem unique_empty {ways : List ω} : Unique ways (fun _ _ => none : Tags γ ω τ) := by
  intro g t x _ y _ hx
  exact nomatch hx

/-! ### Lookups -/

section Find

variable [DecidableEq τ] {ways : List ω} {d : Tags γ ω τ} {g : γ} {x : ω} {t : τ}

/-- The first of the ways that holds `t`. -/
def find (ways : List ω) (d : Tags γ ω τ) (g : γ) (t : τ) : Option ω := ways.find? fun x => d g x == some t

theorem mem_of_find (h : find ways d g t = some x) : x ∈ ways ∧ d g x = some t := by
  have hx := List.find?_some h
  exact ⟨List.mem_of_find?_eq_some h, by simpa using hx⟩

theorem ne_of_find (h : find ways d g t = none) (hx : x ∈ ways) : d g x ≠ some t := by
  have hne := List.find?_eq_none.mp h x hx
  simpa using hne

/-- **The lookup is unambiguous**: it finds the way that holds the tag. -/
theorem Unique.find_eq_some_iff (h : Unique ways d) :
    find ways d g t = some x ↔ x ∈ ways ∧ d g x = some t := by
  constructor
  · exact mem_of_find
  · intro ⟨hx, ht⟩
    cases hf : find ways d g t with
    | none => exact absurd ht (ne_of_find hf hx)
    | some y =>
      obtain ⟨hy, hty⟩ := mem_of_find hf
      rw [h g t y hy x hx hty ht]

/-- **A way is free**, when a tag is missed and there are not more tags than ways. -/
theorem Unique.free_isSome [DecidableEq ω] (h : Unique ways d) (hnodup : ways.Nodup) {T : Finset τ}
    (hheld : ∀ x ∈ ways, ∀ t', d g x = some t' → t' ∈ T) (ht : t ∈ T) (hm : find ways d g t = none)
    (hcard : T.card ≤ ways.length) : (free ways d g).isSome = true := by
  by_contra hfull
  have hfull' : ∀ x ∈ ways, ∃ t', d g x = some t' := by
    intro x hx
    have hnone : free ways d g = none := by simpa using hfull
    have hx' := List.find?_eq_none.mp hnone x hx
    exact Option.ne_none_iff_exists'.mp fun he => hx' (by rw [he]; rfl)
  -- the ways hold different tags, and `t` is none of them
  have hle : ways.toFinset.card ≤ (T.erase t).card := by
    apply Finset.card_le_card_of_injOn fun x => (d g x).getD t
    · intro x hx
      rw [Finset.mem_coe, List.mem_toFinset] at hx
      obtain ⟨t', ht'⟩ := hfull' x hx
      have hne : t' ≠ t := fun he => ne_of_find hm hx (he ▸ ht')
      simp only [ht', Option.getD_some]
      exact Finset.mem_erase.mpr ⟨hne, hheld x hx t' ht'⟩
    · intro x hx y hy hxy
      rw [Finset.mem_coe, List.mem_toFinset] at hx hy
      obtain ⟨t', ht'⟩ := hfull' x hx
      obtain ⟨u, hu⟩ := hfull' y hy
      have htu : t' = u := by simpa [ht', hu] using hxy
      exact h g t' x hx y hy ht' (htu ▸ hu)
  have hlt := Finset.card_erase_lt_of_mem ht
  rw [List.toFinset_card_of_nodup hnodup] at hle
  omega

end Find

/-! ### Fills -/

section Fill

variable [DecidableEq γ] [DecidableEq ω] {ways : List ω} {d : Tags γ ω τ} {g g' : γ} {x y : ω} {t t' : τ}

/-- The value of way `x` of set `g` becomes `v`. -/
def put (f : γ → ω → α) (g : γ) (x : ω) (v : α) : γ → ω → α := fun g' x' => if g' = g ∧ x' = x then v else f g' x'

/-- Way `x` of set `g` gets the tag `t`. -/
def install (d : Tags γ ω τ) (g : γ) (x : ω) (t : τ) : Tags γ ω τ := put d g x (some t)

@[simp] theorem put_self (f : γ → ω → α) (v : α) : put f g x v g x = v := by simp [put]

theorem put_of_ne {f : γ → ω → α} {v : α} (h : ¬ (g' = g ∧ y = x)) : put f g x v g' y = f g' y := if_neg h

/-- Another set is as before. -/
theorem put_of_set_ne {f : γ → ω → α} {v : α} (h : g' ≠ g) : put f g x v g' = f g' := by
  funext y
  exact put_of_ne fun he => h he.1

/-- The value that is there may be put there again. -/
theorem put_eq_self {f : γ → ω → α} {v : α} (h : f g x = v) : put f g x v = f := by
  funext g' y
  by_cases he : g' = g ∧ y = x
  · rw [he.1, he.2, put_self, h]
  · exact put_of_ne he

variable [DecidableEq τ]

/-- **Filling a way on a miss** keeps the tags apart. -/
theorem Unique.install (h : Unique ways d) (hm : find ways d g t = none) (x : ω) :
    Unique ways (install d g x t) := by
  intro g' t' y hy z hz hty htz
  unfold SetAssoc.install at hty htz
  by_cases hyx : g' = g ∧ y = x
  · by_cases hzx : g' = g ∧ z = x
    · rw [hyx.2, hzx.2]
    · rcases hyx with ⟨rfl, rfl⟩
      obtain rfl : t = t' := by simpa using hty
      rw [put_of_ne hzx] at htz
      exact absurd htz (ne_of_find hm hz)
  · rw [put_of_ne hyx] at hty
    by_cases hzx : g' = g ∧ z = x
    · rcases hzx with ⟨rfl, rfl⟩
      obtain rfl : t = t' := by simpa using htz
      exact absurd hty (ne_of_find hm hy)
    · rw [put_of_ne hzx] at htz
      exact h g' t' y hy z hz hty htz

end Fill

end SetAssoc
