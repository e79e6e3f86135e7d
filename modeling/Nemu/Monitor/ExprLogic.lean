/-
# Where && and || may have one priority

`dominant_operator` gives `&&` and `||` one priority, so that `a || b && c` is
`(a || b) && c`. What is written between two parentheses is one level: in C it is a
disjunction of conjunctions. Grouped from the left, it is true if and only if one of
its disjuncts is, and in those to the right of it whatever stands after an `&&` is.

So an expression, and what stands in parentheses in it, gets its C value if and only if
on none of its levels this makes a difference.

Key definitions: `disjuncts`, `conjuncts`, `Stands`, `Grouped`, `ValueRight`.
Key theorems: `strict_join`, `told_of_parts`, `total_of_agrees`, `evalTokens_value_iff`.
-/
import Nemu.Monitor.ExprValue

namespace Nemu

open Bytes

namespace Debug

open Infix

/-! ### One level -/

/-- The operands of the `||` of a level. -/
def disjuncts : CExpr → List CExpr
  | .binary .or l r => disjuncts l ++ [r]
  | e => [e]

/-- The operands of the `&&` of a disjunct. -/
def conjuncts : CExpr → List CExpr
  | .binary .and l r => conjuncts l ++ [r]
  | e => [e]

/-- An expression, and those in its parentheses. -/
def levels (e : CExpr) : List CExpr := e :: parts e

section Level

variable (env : Env)

/-- The value in C is not 0. -/
def Holds (e : CExpr) : Prop := ∃ v, value env e = some v ∧ v ≠ 0

/-- What stands after an `&&` holds. -/
def TailHolds (e : CExpr) : Prop := ∀ c ∈ (conjuncts e).tail, Holds env c

/-- One of them holds, and in those after it what stands after an `&&`. -/
def Stands (l : List CExpr) : Prop :=
  ∃ a d b, l = a ++ d :: b ∧ Holds env d ∧ ∀ d' ∈ b, TailHolds env d'

/-- It makes no difference that `&&` and `||` are grouped from the left. -/
def Grouped (e : CExpr) : Prop := (∃ d ∈ disjuncts e, Holds env d) → Stands env (disjuncts e)

/-- Every operand has a value, those behind `&&` and `||` as well. -/
def Total (e : CExpr) : Prop := (strict env e).isSome = true

/-- The debugger gives the value in C. -/
def ValueRight (e : CExpr) : Prop := ∃ v, value env e = some v ∧ evalTokens env ((items e).map raw) = some v

end Level

section Grouping

variable {env : Env} {e l r p : CExpr} {o : Binary} {u : Unary} {a b v : Word}

theorem prec_flat : ∀ a b, prec a ≤ prec b → flat a ≤ flat b := by
  intro a b
  cases a <;> cases b <;> decide

/-- Only `||` loses its place. -/
theorem prec_succ (ho : o ≠ .or) : ∀ o', prec o + 1 ≤ prec o' → flat o + 1 ≤ flat o' := by
  intro o'
  cases o <;> cases o' <;> first | exact absurd rfl ho | decide

theorem above_one_iff : Above prec 1 (.binary o l r) ↔ o ≠ .or := by
  cases o <;> simp [Above, prec]

/-! ### Operands that are all evaluated -/

theorem strict_unary : strict env (.unary u e) = (strict env e).bind (u.apply env) := rfl

theorem strict_binary : strict env (.binary o l r) =
    (strict env l).bind fun a => (strict env r).bind (o.apply a) := rfl

/-- `&&` and `||` do not fail. -/
theorem apply_and (a b : Word) : ∃ c : Bool, Binary.and.apply a b = some (boolWord c) ∧ (c = true ↔ a ≠ 0 ∧ b ≠ 0) :=
  ⟨a != 0 && b != 0, rfl, by simp⟩

theorem apply_or (a b : Word) : ∃ c : Bool, Binary.or.apply a b = some (boolWord c) ∧ (c = true ↔ a ≠ 0 ∨ b ≠ 0) :=
  ⟨a != 0 || b != 0, rfl, by simp⟩

theorem boolWord_ne_zero {c : Bool} : boolWord c ≠ 0 ↔ c = true := by cases c <;> decide

theorem Total.operands (h : Total env (.binary o l r)) : Total env l ∧ Total env r := by
  obtain ⟨v, hv⟩ := Option.isSome_iff_exists.mp h
  rw [strict_binary] at hv
  rcases Option.bind_eq_some_iff.mp hv with ⟨a, ha, hv⟩
  rcases Option.bind_eq_some_iff.mp hv with ⟨b, hb, -⟩
  exact ⟨Option.isSome_iff_exists.mpr ⟨a, ha⟩, Option.isSome_iff_exists.mpr ⟨b, hb⟩⟩

theorem Total.unary (h : Total env (.unary u e)) : Total env e := by
  obtain ⟨v, hv⟩ := Option.isSome_iff_exists.mp h
  rw [strict_unary] at hv
  rcases Option.bind_eq_some_iff.mp hv with ⟨a, ha, -⟩
  exact Option.isSome_iff_exists.mpr ⟨a, ha⟩

theorem Total.part (h : Total env e) (hp : p ∈ parts e) : Total env p := by
  induction e with
  | atom a => exact (List.not_mem_nil hp).elim
  | paren e ih =>
    rcases List.mem_cons.mp hp with rfl | hp
    · exact h
    · exact ih h hp
  | unary u e ih => exact ih h.unary hp
  | binary o l r ihl ihr =>
    rcases List.mem_append.mp hp with hp | hp
    · exact ihl h.operands.1 hp
    · exact ihr h.operands.2 hp

theorem holds_iff (h : strict env e = some v) : Holds env e ↔ v ≠ 0 := by
  have hv : value env e = some v := value_of_strict h
  constructor
  · rintro ⟨w, hw, hne⟩
    rw [hv] at hw
    exact Option.some.inj hw ▸ hne
  · exact fun hne => ⟨v, hv, hne⟩

/-- `||` holds where one of its operands does. -/
theorem holds_or (h : Total env (.binary .or l r)) :
    Holds env (.binary .or l r) ↔ Holds env l ∨ Holds env r := by
  obtain ⟨a, ha⟩ := Option.isSome_iff_exists.mp h.operands.1
  obtain ⟨b, hb⟩ := Option.isSome_iff_exists.mp h.operands.2
  obtain ⟨c, hc, hiff⟩ := apply_or a b
  have hv : strict env (.binary .or l r) = some (boolWord c) := by
    rw [strict_binary, ha, hb]
    exact hc
  rw [holds_iff hv, holds_iff ha, holds_iff hb, boolWord_ne_zero, hiff]

theorem holds_and (h : Total env (.binary .and l r)) :
    Holds env (.binary .and l r) ↔ Holds env l ∧ Holds env r := by
  obtain ⟨a, ha⟩ := Option.isSome_iff_exists.mp h.operands.1
  obtain ⟨b, hb⟩ := Option.isSome_iff_exists.mp h.operands.2
  obtain ⟨c, hc, hiff⟩ := apply_and a b
  have hv : strict env (.binary .and l r) = some (boolWord c) := by
    rw [strict_binary, ha, hb]
    exact hc
  rw [holds_iff hv, holds_iff ha, holds_iff hb, boolWord_ne_zero, hiff]

theorem disjuncts_of_above (h : Above prec 1 e) : disjuncts e = [e] := by
  cases e with
  | binary o l r =>
    have ho := above_one_iff.mp h
    cases o <;> first | exact absurd rfl ho | rfl
  | _ => rfl

theorem conjuncts_of_above (h : Above prec 2 e) : conjuncts e = [e] := by
  cases e with
  | binary o l r =>
    have ho : 2 ≤ prec o := h
    cases o <;> first | rfl | exact absurd ho (by decide)
  | _ => rfl

theorem conjuncts_ne_nil (e : CExpr) : conjuncts e ≠ [] := by
  unfold conjuncts
  split
  · simp
  · simp

theorem tail_conjuncts_and : (conjuncts (.binary .and l r)).tail = (conjuncts l).tail ++ [r] := by
  rw [conjuncts, List.tail_append_of_ne_nil (conjuncts_ne_nil l)]

/-- A level holds where one of its disjuncts does. -/
theorem holds_disjuncts (h : Total env e) : (∃ d ∈ disjuncts e, Holds env d) ↔ Holds env e := by
  induction e with
  | binary o l r ihl _ =>
    cases o with
    | or =>
      rw [holds_or h, ← ihl h.operands.1]
      simp [disjuncts, or_and_right, exists_or]
    | _ => simp [disjuncts]
  | _ => simp [disjuncts]

/-- The last disjunct, and those to the left of it. -/
theorem stands_snoc {l : List CExpr} {r : CExpr} :
    Stands env (l ++ [r]) ↔ Holds env r ∨ Stands env l ∧ TailHolds env r := by
  constructor
  · rintro ⟨a, d, b, heq, hd, hb⟩
    rcases List.eq_nil_or_concat b with rfl | ⟨b, x, rfl⟩
    · obtain ⟨-, hr⟩ := List.append_inj' heq rfl
      obtain rfl := List.singleton_inj.mp hr
      exact .inl hd
    · rw [List.concat_eq_append, ← List.cons_append, ← List.append_assoc] at heq
      obtain ⟨hl, hr⟩ := List.append_inj' heq rfl
      obtain rfl := List.singleton_inj.mp hr
      refine .inr ⟨⟨a, d, b, hl, hd, fun d' hd' => hb d' ?_⟩, hb r ?_⟩
      · rw [List.concat_eq_append]
        exact List.mem_append_left _ hd'
      · rw [List.concat_eq_append]
        exact List.mem_append_right _ (List.mem_singleton_self r)
  · rintro (hr | ⟨⟨a, d, b, rfl, hd, hb⟩, hr⟩)
    · exact ⟨l, r, [], rfl, hr, fun _ h => (List.not_mem_nil h).elim⟩
    · refine ⟨a, d, b ++ [r], by simp, hd, fun d' hd' => ?_⟩
      rcases List.mem_append.mp hd' with hd' | hd'
      · exact hb d' hd'
      · obtain rfl := List.mem_singleton.mp hd'
        exact hr

theorem stands_singleton : Stands env [e] ↔ Holds env e := by
  refine (stands_snoc (l := [])).trans ⟨?_, .inl⟩
  rintro (h | ⟨⟨a, d, b, heq, -⟩, -⟩)
  · exact h
  · exact absurd heq (by simp)

theorem exists_of_stands (h : Stands env (disjuncts e)) : ∃ d ∈ disjuncts e, Holds env d := by
  obtain ⟨a, d, b, heq, hd, -⟩ := h
  exact ⟨d, by rw [heq]; simp, hd⟩

/-! ### The value that is grouped from the left -/

/-- Grouping from the left makes no difference for the whole. -/
def Same (env : Env) (e : CExpr) : Prop := strict env (regroup flat e) = strict env e

/-- A disjunct without `&&` after `l ||`. -/
theorem strict_join_single (hp : Proper prec r) (hr : Above prec 2 r) (htotal : Total env r)
    (hsame : ∀ c ∈ conjuncts r, Same env c) (hl : strict env l = some a) :
    ∃ c : Bool, strict env (join flat .or l (regroup flat r)) = some (boolWord c) ∧
      (c = true ↔ Holds env r ∨ a ≠ 0 ∧ TailHolds env r) := by
  have htop : Above flat (flat .or + 1) (regroup flat r) := by
    refine above_regroup (k := 2) prec_flat hp (fun o ho => ?_) hr
    cases o <;> first | decide | exact absurd ho (by decide)
  have hone := conjuncts_of_above hr
  have htail : TailHolds env r := by
    intro c hc
    rw [hone] at hc
    exact (List.not_mem_nil hc).elim
  have hr : Same env r := hsame r (by rw [hone]; exact List.mem_singleton_self r)
  obtain ⟨b, hb⟩ := Option.isSome_iff_exists.mp htotal
  obtain ⟨c, hc, hiff⟩ := apply_or a b
  refine ⟨c, ?_, by rw [hiff, holds_iff hb, and_iff_left htail, or_comm]⟩
  rw [join_of_above htop, strict_binary, hl, hr, hb]
  exact hc

/-- **A disjunct after `l ||`**: the `||` takes its first conjunct only. -/
theorem strict_join (hp : Proper prec r) (hr : Above prec 1 r) (htotal : Total env r)
    (hsame : ∀ c ∈ conjuncts r, Same env c) (hl : strict env l = some a) :
    ∃ c : Bool, strict env (join flat .or l (regroup flat r)) = some (boolWord c) ∧
      (c = true ↔ Holds env r ∨ a ≠ 0 ∧ TailHolds env r) := by
  induction r with
  | binary o r₁ r₂ ih _ =>
    by_cases hand : o = .and
    · subst hand
      have hlast : Same env r₂ := hsame r₂ (List.mem_append_right _ (List.mem_singleton_self r₂))
      obtain ⟨b, hb⟩ := Option.isSome_iff_exists.mp htotal.operands.2
      obtain ⟨c, hc, hfirst⟩ := ih hp.2.2.1 hp.1 htotal.operands.1
        fun c hc => hsame c (List.mem_append_left _ hc)
      obtain ⟨c', hc', hiff⟩ := apply_and (boolWord c) b
      refine ⟨c', ?_, ?_⟩
      · rw [regroup_binary prec_flat hp (prec_succ nofun), join, if_pos (show flat .and ≤ flat .or from le_rfl), strict_binary, hc,
          hlast, hb]
        exact hc'
      · have htail : TailHolds env (.binary .and r₁ r₂) ↔ TailHolds env r₁ ∧ Holds env r₂ := by
          unfold TailHolds
          rw [tail_conjuncts_and]
          simp [or_imp, forall_and]
        rw [hiff, boolWord_ne_zero, hfirst, holds_and htotal, htail, ← holds_iff hb, or_and_right,
          and_assoc]
    · have h2 : Above prec 2 (.binary o r₁ r₂) := by
        have h1 : 1 ≤ prec o := hr
        show 2 ≤ prec o
        cases o <;> first | decide | exact absurd rfl hand | exact absurd h1 (by decide)
      exact strict_join_single hp h2 htotal hsame hl
  | _ => exact strict_join_single hp trivial htotal hsame hl

/-! ### The value of a level -/

/-- The value grouped from the left is told by the disjuncts. -/
structure Told (env : Env) (e : CExpr) : Prop where
  same : Above prec 1 e → ∀ c ∈ e :: conjuncts e, Same env c
  value : ∃ v, strict env (regroup flat e) = some v ∧ (v ≠ 0 ↔ Stands env (disjuncts e)) ∧
    (¬ Above prec 1 e → ∃ c, v = boolWord c)

/-- Without `||`. -/
theorem Told.of_same (h1 : Above prec 1 e) (htotal : Total env e) (h : ∀ c ∈ e :: conjuncts e, Same env c) :
    Told env e := by
  obtain ⟨v, hv⟩ := Option.isSome_iff_exists.mp htotal
  refine ⟨fun _ => h, v, (h e List.mem_cons_self).trans hv, ?_, fun hnot => absurd h1 hnot⟩
  rw [disjuncts_of_above h1, stands_singleton, holds_iff hv]

/-- Without `&&` either. -/
theorem Told.of_single (h2 : Above prec 2 e) (htotal : Total env e) (h : Same env e) : Told env e := by
  refine .of_same (h2.mono (by decide)) htotal fun c hc => ?_
  rw [conjuncts_of_above h2] at hc
  obtain rfl : c = e := by simpa using hc
  exact h

/-- The value of a level with `||` is 0 or 1. -/
theorem strict_or (htotal : Total env e) (h : ¬ Above prec 1 e) : ∃ c : Bool, strict env e = some (boolWord c) := by
  cases e with
  | binary o l r =>
    obtain rfl : o = .or := by
      by_contra hne
      exact h (above_one_iff.mpr hne)
    obtain ⟨a, ha⟩ := Option.isSome_iff_exists.mp htotal.operands.1
    obtain ⟨b, hb⟩ := Option.isSome_iff_exists.mp htotal.operands.2
    obtain ⟨c, hc, -⟩ := apply_or a b
    refine ⟨c, ?_⟩
    rw [strict_binary, ha, hb]
    exact hc
  | _ => exact absurd trivial h

/-- What does not depend on the grouping has its value. -/
theorem Told.same_of_grouped (ht : Told env e) (htotal : Total env e) (h : Grouped env e) : Same env e := by
  by_cases h1 : Above prec 1 e
  · exact ht.same h1 e List.mem_cons_self
  obtain ⟨v, hv, hstands, hbool⟩ := ht.value
  obtain ⟨c, rfl⟩ := hbool h1
  obtain ⟨c', hc'⟩ := strict_or htotal h1
  have hiff : c = true ↔ c' = true := by
    rw [← boolWord_ne_zero, hstands, ← boolWord_ne_zero, ← holds_iff hc', ← holds_disjuncts htotal]
    exact ⟨exists_of_stands, h⟩
  rw [Same, hv, hc', Bool.eq_iff_iff.mpr hiff]

theorem Told.grouped_of_same (ht : Told env e) (htotal : Total env e) (h : Same env e) : Grouped env e := by
  intro hd
  obtain ⟨v, hv, hstands, -⟩ := ht.value
  rw [holds_disjuncts htotal, holds_iff (h.symm.trans hv)] at hd
  exact hstands.mp hd

/-- **The value of a level**, where every operand has a value and no level in
parentheses depends on the grouping. -/
theorem told_of_parts (he : Proper prec e) (htotal : Total env e)
    (hparts : ∀ p ∈ parts e, Grouped env p) : Told env e := by
  induction e with
  | atom a => exact .of_single trivial htotal rfl
  | paren e ih =>
    have ht : Told env e := ih he htotal fun p hp => hparts p (List.mem_cons_of_mem _ hp)
    exact .of_single trivial htotal (ht.same_of_grouped htotal (hparts e List.mem_cons_self))
  | unary u e ih =>
    have ht : Told env e := ih he.2 htotal.unary hparts
    have hsame : Same env e := ht.same he.1.above e List.mem_cons_self
    refine .of_single trivial htotal ?_
    rw [Same, regroup, strict_unary, hsame, strict_unary]
  | binary o l r ihl ihr =>
    obtain ⟨hal, har, hpl, hpr⟩ := he
    have htl : Told env l := ihl hpl htotal.operands.1 fun p hp => hparts p (List.mem_append_left _ hp)
    have htr : Told env r := ihr hpr htotal.operands.2 fun p hp => hparts p (List.mem_append_right _ hp)
    by_cases hor : o = .or
    · subst hor
      have hr1 : Above prec 1 r := har
      obtain ⟨a, ha, hstands, -⟩ := htl.value
      obtain ⟨c, hc, hiff⟩ := strict_join hpr hr1 htotal.operands.2
        (fun c hc => htr.same hr1 c (List.mem_cons_of_mem _ hc)) ha
      refine ⟨fun h1 => absurd rfl (above_one_iff.mp h1), boolWord c, hc, ?_, fun _ => ⟨c, rfl⟩⟩
      rw [boolWord_ne_zero, hiff, hstands, disjuncts, stands_snoc]
    · have hlow : 1 ≤ prec o := above_one_iff (l := l) (r := r).mpr hor
      have hsl : ∀ c ∈ l :: conjuncts l, Same env c := htl.same (hal.mono hlow)
      have hsr : Same env r := htr.same (har.mono (Nat.le_succ_of_le hlow)) r List.mem_cons_self
      have hsame : Same env (.binary o l r) := by
        rw [Same, regroup_binary prec_flat ⟨hal, har, hpl, hpr⟩ (prec_succ hor), strict_binary,
          hsl l List.mem_cons_self, hsr, strict_binary]
      by_cases hand : o = .and
      · subst hand
        refine .of_same le_rfl htotal fun c hc => ?_
        rcases List.mem_cons.mp hc with rfl | hc
        · exact hsame
        rcases List.mem_append.mp hc with hc | hc
        · exact hsl c (List.mem_cons_of_mem _ hc)
        · obtain rfl := List.mem_singleton.mp hc
          exact hsr
      · refine .of_single ?_ htotal hsame
        show 2 ≤ prec o
        cases o <;> first | decide | exact absurd rfl hand | exact absurd rfl hor

/-! ### An expression and its parts -/

/-- Grouping from the left does not make an operand fail. -/
theorem isSome_join (h : (strict env (join flat o l r)).isSome = true) (ho : flat o = 0) :
    Total env l ∧ Total env r := by
  induction r with
  | binary o' a b iha _ =>
    unfold join at h
    split_ifs at h with hle
    · have hX := Total.operands (l := join flat o l a) h
      obtain ⟨hl, ha⟩ := iha hX.1
      refine ⟨hl, ?_⟩
      obtain ⟨x, hx⟩ := Option.isSome_iff_exists.mp ha
      obtain ⟨y, hy⟩ := Option.isSome_iff_exists.mp hX.2
      have hlogic : o' = .and ∨ o' = .or := by
        have h0 : flat o' = 0 := by omega
        cases o' <;> first | exact .inl rfl | exact .inr rfl | exact absurd h0 (by decide)
      rw [Total, strict_binary, hx, hy]
      rcases hlogic with rfl | rfl <;> rfl
    · exact Total.operands h
  | _ => exact Total.operands h

/-- Grouped from the left, it has the value in C. -/
def Agrees (env : Env) (e : CExpr) : Prop := ∃ v, value env e = some v ∧ strict env (regroup flat e) = some v

theorem Agrees.same (h : Agrees env e) (htotal : Total env e) : Same env e := by
  obtain ⟨v, hv, hs⟩ := h
  obtain ⟨w, hw⟩ := Option.isSome_iff_exists.mp htotal
  rw [value_of_strict hw] at hv
  rw [Same, hs, hw, hv]

/-- Where the parts have their values, and all operands are evaluated, all operands have
values in C. -/
theorem total_of_agrees (he : Proper prec e) (hparts : ∀ p ∈ parts e, Agrees env p)
    (h : (strict env (regroup flat e)).isSome = true) :
    Total env e ∧ (Above prec 1 e → Same env e) := by
  induction e with
  | atom a => exact ⟨h, fun _ => rfl⟩
  | paren e ih =>
    have htotal : Total env e := (ih he (fun p hp => hparts p (List.mem_cons_of_mem _ hp)) h).1
    exact ⟨htotal, fun _ => (hparts e List.mem_cons_self).same htotal⟩
  | unary u e ih =>
    have hsame : Same env e := (ih he.2 hparts (Total.unary (e := regroup flat e) h)).2 he.1.above
    have hunary : strict env (regroup flat (.unary u e)) = strict env (.unary u e) := by
      rw [regroup, strict_unary, hsame, strict_unary]
    rw [hunary] at h
    exact ⟨h, fun _ => hunary⟩
  | binary o l r ihl ihr =>
    obtain ⟨hal, har, hpl, hpr⟩ := he
    have hpartsl : ∀ p ∈ parts l, Agrees env p := fun p hp => hparts p (List.mem_append_left _ hp)
    have hpartsr : ∀ p ∈ parts r, Agrees env p := fun p hp => hparts p (List.mem_append_right _ hp)
    by_cases hor : o = .or
    · subst hor
      obtain ⟨hl, hr⟩ := isSome_join h rfl
      obtain ⟨a, ha⟩ := Option.isSome_iff_exists.mp (ihl hpl hpartsl hl).1
      obtain ⟨b, hb⟩ := Option.isSome_iff_exists.mp (ihr hpr hpartsr hr).1
      refine ⟨?_, fun h1 => absurd rfl (above_one_iff.mp h1)⟩
      rw [Total, strict_binary, ha, hb]
      rfl
    · have hlow : 1 ≤ prec o := above_one_iff (l := l) (r := r).mpr hor
      rw [regroup_binary prec_flat ⟨hal, har, hpl, hpr⟩ (prec_succ hor)] at h
      obtain ⟨hl, hr⟩ := Total.operands h
      have hsl : Same env l := (ihl hpl hpartsl hl).2 (hal.mono hlow)
      have hsr : Same env r := (ihr hpr hpartsr hr).2 (har.mono (Nat.le_succ_of_le hlow))
      rw [strict_binary, hsl, hsr, ← strict_binary] at h
      refine ⟨h, fun _ => ?_⟩
      rw [Same, regroup_binary prec_flat ⟨hal, har, hpl, hpr⟩ (prec_succ hor), strict_binary, hsl, hsr,
        strict_binary]

/-- From inside to outside, no level depends on the grouping. -/
theorem grouped_parts (he : Proper prec e) (htotal : Total env e) (hparts : ∀ p ∈ parts e, Same env p) :
    ∀ p ∈ parts e, Grouped env p := by
  induction e with
  | atom a => exact fun _ hp => (List.not_mem_nil hp).elim
  | paren e ih =>
    have hin : ∀ p ∈ parts e, Grouped env p := ih he htotal fun p hp => hparts p (List.mem_cons_of_mem _ hp)
    have ht : Told env e := told_of_parts he htotal hin
    exact List.forall_mem_cons.mpr ⟨ht.grouped_of_same htotal (hparts e List.mem_cons_self), hin⟩
  | unary u e ih => exact ih he.2 htotal.unary hparts
  | binary o l r ihl ihr =>
    refine List.forall_mem_append.mpr ⟨?_, ?_⟩
    · exact ihl he.2.2.1 htotal.operands.1 fun p hp => hparts p (List.mem_append_left _ hp)
    · exact ihr he.2.2.2 htotal.operands.2 fun p hp => hparts p (List.mem_append_right _ hp)

/-- What holds of an expression holds of what is in its parentheses. -/
theorem Numbers.part (h : Numbers e) (hp : p ∈ parts e) : Numbers p := fun a ha =>
  h a ((infix_items hp).subset ha)

theorem Spaced.part (h : Spaced e) (hp : p ∈ parts e) : Spaced p := List.IsChain.infix h (infix_items hp)

theorem NamesFit.part (h : NamesFit env e) (hp : p ∈ parts e) : NamesFit env p := fun s hs =>
  h s ((infix_items hp).subset hs)

theorem RegsFound.part (h : RegsFound e) (hp : p ∈ parts e) : RegsFound p := fun s hs =>
  h s ((infix_items hp).subset hs)

theorem ValueRight.agrees (h : ValueRight env e) (he : Proper prec e) (hw : Numbers e) :
    Agrees env e ∧ Spaced e ∧ NamesFit env e ∧ RegsFound e := by
  obtain ⟨v, hv, heval⟩ := h
  obtain ⟨hs, hnames, hregs, hstrict⟩ := (evalTokens_eq_some he hw).mp heval
  exact ⟨⟨v, hv, hstrict⟩, hs, hnames, hregs⟩

/-- One level is right. -/
theorem right_of_grouped (he : Proper prec e) (hw : Numbers e) (hs : Spaced e) (hnames : NamesFit env e)
    (hregs : RegsFound e) (htotal : Total env e) (hlevels : ∀ p ∈ levels e, Grouped env p) : ValueRight env e := by
  obtain ⟨hgrouped, hparts⟩ := List.forall_mem_cons.mp hlevels
  obtain ⟨v, hv⟩ := Option.isSome_iff_exists.mp htotal
  have hsame : Same env e := (told_of_parts he htotal hparts).same_of_grouped htotal hgrouped
  exact ⟨v, value_of_strict hv, (evalTokens_eq_some he hw).mpr ⟨hs, hnames, hregs, hsame.trans hv⟩⟩

/-- **The value of an expression.** The debugger gives an expression, and all that is in
parentheses in it, its value in C if and only if no unary operator is applied to a unary
one and no `-` or `*` stands after a symbol, the names of the objects fit, the registers
are looked for, every operand has a value, and on none of its levels it makes a
difference that `&&` and `||` are grouped from the left. -/
theorem evalTokens_value_iff (he : Proper prec e) (hw : Numbers e) :
    (∀ p ∈ levels e, ValueRight env p) ↔ Spaced e ∧ NamesFit env e ∧ RegsFound e ∧ Total env e ∧
      ∀ p ∈ levels e, Grouped env p := by
  constructor
  · intro h
    obtain ⟨hright, hparts⟩ := List.forall_mem_cons.mp h
    obtain ⟨hagrees, hs, hnames, hregs⟩ := hright.agrees he hw
    have hin : ∀ p ∈ parts e, Agrees env p := fun p hp => ((hparts p hp).agrees (he.part hp) (hw.part hp)).1
    have htotal : Total env e := by
      obtain ⟨v, -, hv⟩ := hagrees
      exact (total_of_agrees he hin (Option.isSome_iff_exists.mpr ⟨v, hv⟩)).1
    have hgrouped : ∀ p ∈ parts e, Grouped env p :=
      grouped_parts he htotal fun p hp => (hin p hp).same (htotal.part hp)
    refine ⟨hs, hnames, hregs, htotal, List.forall_mem_cons.mpr ⟨?_, hgrouped⟩⟩
    exact (told_of_parts he htotal hgrouped).grouped_of_same htotal (hagrees.same htotal)
  · rintro ⟨hs, hnames, hregs, htotal, hlevels⟩ p hp
    obtain ⟨-, hparts⟩ := List.forall_mem_cons.mp hlevels
    rcases List.mem_cons.mp hp with rfl | hp
    · exact right_of_grouped he hw hs hnames hregs htotal hlevels
    · refine right_of_grouped (he.part hp) (hw.part hp) (hs.part hp) (hnames.part hp) (hregs.part hp)
        (htotal.part hp) (List.forall_mem_cons.mpr ⟨hparts p hp, fun q hq => ?_⟩)
      exact hparts q (parts_trans hp hq)

end Grouping

/-- `0 || 1`. -/
def zeroOrOne : CExpr := .binary .or (.atom (.dec ['0'])) (.atom (.dec ['1']))

/-- `0 || 1 && (0 || 1)`, and what is in its brackets. -/
theorem evalTokens_value_iff_logic :
    ValueRight noEnv (.binary .or (.atom (.dec ['0'])) (.binary .and (.atom (.dec ['1'])) (.paren zeroOrOne))) ∧
      ValueRight noEnv zeroOrOne := by
  have hone : Holds noEnv (.atom (.dec ['1'])) := ⟨1, rfl, by decide⟩
  have hlevel : Grouped noEnv zeroOrOne := fun _ =>
    ⟨[.atom (.dec ['0'])], .atom (.dec ['1']), [], rfl, hone, fun _ h => (List.not_mem_nil h).elim⟩
  suffices h : ∀ p ∈ levels (.binary .or (.atom (.dec ['0'])) (.binary .and (.atom (.dec ['1'])) (.paren zeroOrOne))),
      ValueRight noEnv p by
    obtain ⟨hwhole, hparts⟩ := List.forall_mem_cons.mp h
    exact ⟨hwhole, List.forall_mem_singleton.mp hparts⟩
  refine (evalTokens_value_iff ?_ ?_).mpr ⟨?_, ?_, ?_, rfl, ?_⟩
  · exact ⟨trivial, le_refl _, trivial, trivial, trivial, trivial, trivial, trivial, trivial, trivial⟩
  · simp [Numbers, items, zeroOrOne, Atom.Wf]
  · simp [Spaced, items, zeroOrOne, Apart]
  · simp [NamesFit, items, zeroOrOne]
  · simp [RegsFound, items, zeroOrOne]
  · refine List.forall_mem_cons.mpr ⟨fun _ => ?_, List.forall_mem_singleton.mpr hlevel⟩
    exact ⟨[.atom (.dec ['0'])], .binary .and (.atom (.dec ['1'])) (.paren zeroOrOne), [], rfl, ⟨1, rfl, by decide⟩,
      fun _ h => (List.not_mem_nil h).elim⟩

/-- `!!1` is 1 in C; the debugger stops at an assertion. -/
theorem not_not_fails :
    let e : CExpr := .unary .not (.unary .not (.atom (.dec ['1'])))
    Proper prec e ∧ Numbers e ∧ value noEnv e = some 1 ∧ evalTokens noEnv ((items e).map raw) = none := by
  refine ⟨⟨trivial, trivial, trivial⟩, by simp [Numbers, items, Atom.Wf], rfl, ?_⟩
  apply Option.eq_none_iff_forall_not_mem.mpr
  intro v hv
  have hs := spaced_of_evalTokens hv
  exact (List.isChain_cons_cons.mp hs).1

end Debug

end Nemu
