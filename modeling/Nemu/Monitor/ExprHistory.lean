/-
# Expressions one after the other

`make_token` copies the text of a token without a null character at its end, over
what an earlier expression left in the same entry of `tokens`. So a text is read
right if and only if no earlier expression had a longer one in that entry, and it
leaves room for the null character that was there at the start.

Key definitions: `lex`, `put`, `ExprRun`, `TextsRight`, `NoLonger`.
Key theorems: `makeToken_eq`, `text_strncpy`, `ExprRun.nul_iff`, `eval_strip`,
`exprRun_independent_iff`.
-/
import Nemu.Monitor.ExprValue

namespace Nemu

open Bytes

namespace Debug

/-! ### What is recognised -/

/-- The tokens of a text, and whether all of it was recognised. -/
def lex : ℕ → List Char → List (TokenType × List Char) × Bool
  | _, [] => ([], true)
  | 0, _ => ([], false)
  | fuel + 1, e =>
    match firstRule e with
    | none => ([], false)
    | some (.notype, n) => lex fuel (e.drop n)
    | some (type, n) =>
      let r := lex fuel (e.drop n)
      ((type, recorded type n e) :: r.1, r.2)

/-- The tokens are put into the array, from the entry `nr` on. -/
def put : List (TokenType × List Char) → ℕ → Tokens → Tokens
  | [], _, tokens => tokens
  | t :: l, nr, tokens => put l (nr + 1) (Function.update tokens nr ⟨t.1, strncpy (tokens nr).str t.2⟩)

/-- The tokens of a text. -/
def tokensOf (e : List Char) : List (TokenType × List Char) := (lex e.length e).1

/-- The text is recognised. -/
def recognised (e : List Char) : Bool := (lex e.length e).2

section Lex

variable {e s : List Char} {tokens : Tokens} {fuel nr i n : ℕ}

theorem makeToken_eq (fuel : ℕ) (e : List Char) (tokens : Tokens) (nr : ℕ) :
    makeToken fuel e tokens nr =
      ((lex fuel e).2, put (lex fuel e).1 nr tokens, nr + (lex fuel e).1.length) := by
  induction fuel generalizing e tokens nr with
  | zero => cases e <;> rfl
  | succ fuel ih =>
    cases e with
    | nil => rfl
    | cons c e =>
      unfold makeToken lex
      cases hrule : firstRule (c :: e) with
      | none => rfl
      | some r =>
        rcases r with ⟨type, n⟩
        by_cases htype : type = .notype
        · subst htype
          exact ih _ _ _
        · cases type <;>
            first
            | exact absurd rfl htype
            | (simp only [ih, List.length_cons, put, Prod.mk.injEq, true_and]; omega)

/-- The entries after the tokens were put into them. -/
theorem put_apply (l : List (TokenType × List Char)) (nr : ℕ) (tokens : Tokens) (i : ℕ) :
    put l nr tokens i =
      if i < nr then tokens i
      else l[i - nr]?.elim (tokens i) fun t => ⟨t.1, strncpy (tokens i).str t.2⟩ := by
  induction l generalizing nr tokens with
  | nil => simp [put]
  | cons t l ih =>
    rw [put, ih]
    rcases Nat.lt_trichotomy i nr with h | rfl | h
    · rw [if_pos (by omega), if_pos h, Function.update_of_ne h.ne]
    · simp
    · have hsub : i - nr = (i - (nr + 1)) + 1 := by omega
      rw [if_neg (by omega), if_neg (by omega), Function.update_of_ne h.ne', hsub, List.getElem?_cons_succ]

theorem put_zero (l : List (TokenType × List Char)) (tokens : Tokens) (i : ℕ) :
    put l 0 tokens i = l[i]?.elim (tokens i) fun t => ⟨t.1, strncpy (tokens i).str t.2⟩ := by
  rw [put_apply, if_neg (Nat.not_lt_zero i), Nat.sub_zero]

end Lex

/-! ### No null characters -/

section Nul

/-- A match has no null character. -/
def Clean (m : List Char → Option ℕ) : Prop := ∀ e n, m e = some n → ∀ c ∈ e.take n, c ≠ nul

theorem literal_clean {s : List Char} (hs : nul ∉ s) : Clean (literal s) := by
  intro e n h
  unfold literal at h
  split_ifs at h with hpre
  obtain rfl := Option.some.inj h
  rw [← List.prefix_iff_eq_take.mp (List.isPrefixOf_iff_prefix.mp hpre)]
  rintro c hc rfl
  exact hs hc

theorem many_clean {p : Char → Bool} (hp : p nul = false) : Clean (many p) := by
  intro e n h
  unfold many at h
  split_ifs at h
  obtain rfl := Option.some.inj h
  rw [← List.prefix_iff_eq_take.mp (List.takeWhile_prefix p)]
  rintro c hc rfl
  rw [List.mem_takeWhile_imp hc] at hp
  exact nomatch hp

theorem after_clean {s : List Char} {p : Char → Bool} (hs : nul ∉ s) (hp : p nul = false) :
    Clean (after s p) := by
  intro e n h
  rcases Option.bind_eq_some_iff.mp h with ⟨k, hk, h⟩
  rcases Option.bind_eq_some_iff.mp h with ⟨m, hm, h⟩
  obtain rfl := Option.some.inj h
  intro c hc
  rw [List.take_add, List.mem_append] at hc
  rcases hc with hc | hc
  · exact literal_clean hs e k hk c hc
  · exact many_clean hp _ m hm c hc

theorem rules_clean : ∀ r ∈ rules, Clean r.1 := by
  simp only [rules, List.forall_mem_cons]
  refine ⟨literal_clean (by decide), literal_clean (by decide), after_clean (by decide) (by decide),
    many_clean (by decide), after_clean (by decide) (by decide), many_clean (by decide),
    many_clean (by decide), literal_clean (by decide), literal_clean (by decide), literal_clean (by decide),
    literal_clean (by decide), literal_clean (by decide), literal_clean (by decide),
    literal_clean (by decide), literal_clean (by decide), literal_clean (by decide), ?_⟩
  exact fun _ h => (List.not_mem_nil h).elim

theorem firstRule_clean {e : List Char} {type : TokenType} {n : ℕ} (h : firstRule e = some (type, n)) :
    ∀ c ∈ recorded type n e, c ≠ nul := by
  rcases List.exists_of_findSome?_eq_some h with ⟨r, hr, hmatch⟩
  rcases Option.map_eq_some_iff.mp hmatch with ⟨k, hk, heq⟩
  obtain ⟨-, rfl⟩ := Prod.mk.inj heq
  intro c hc
  refine rules_clean r hr e k hk c ?_
  cases type <;> first | exact hc | exact List.mem_of_mem_drop hc

/-- Induction along `lex`. -/
theorem lex_induct {motive : List Char → List (TokenType × List Char) × Bool → Prop}
    (nil : ∀ e b, (e = [] → b = true) → motive e ([], b))
    (space : ∀ e n r, firstRule e = some (.notype, n) → motive (e.drop n) r → motive e r)
    (token : ∀ e type n r, firstRule e = some (type, n) → motive (e.drop n) r →
      motive e ((type, recorded type n e) :: r.1, r.2)) (fuel : ℕ) (e : List Char) : motive e (lex fuel e) := by
  induction fuel generalizing e with
  | zero => cases e <;> exact nil _ _ (by simp)
  | succ fuel ih =>
    cases e with
    | nil => exact nil _ _ fun _ => rfl
    | cons c e =>
      unfold lex
      cases hrule : firstRule (c :: e) with
      | none => exact nil _ _ (by simp)
      | some r =>
        rcases r with ⟨type, n⟩
        by_cases htype : type = .notype
        · subst htype
          exact space _ n _ hrule (ih _)
        · cases type <;> first | exact absurd rfl htype | exact token _ _ n _ hrule (ih _)

/-- What holds of every match that is recorded holds of the tokens. -/
theorem lex_forall {p : TokenType × List Char → Prop}
    (h : ∀ {e : List Char} {type : TokenType} {n : ℕ}, firstRule e = some (type, n) →
      p (type, recorded type n e)) (fuel : ℕ) (e : List Char) : ∀ t ∈ (lex fuel e).1, p t := by
  apply lex_induct (motive := fun _ r => ∀ t ∈ r.1, p t)
  · intro e b _ t ht
    exact absurd ht List.not_mem_nil
  · intro e n r _ ih
    exact ih
  · intro e type n r hrule ih
    exact List.forall_mem_cons.mpr ⟨h hrule, ih⟩

/-- The text of a token has no null character. -/
theorem lex_clean (fuel : ℕ) (e : List Char) : ∀ t ∈ (lex fuel e).1, ∀ c ∈ t.2, c ≠ nul :=
  lex_forall (fun h => firstRule_clean h) fuel e

end Nul

/-! ### Texts in the array -/

section Text

variable {str : ℕ → Char} {s : List Char}

theorem strncpy_of_lt {k : ℕ} (h : k < s.length) : strncpy str s k = s[k] := by
  simp [strncpy, h]

theorem strncpy_of_ge {k : ℕ} (h : s.length ≤ k) : strncpy str s k = str k := by
  simp [strncpy, h]

/-- The characters of the array, from the text on. -/
theorem strncpy_split (h : s.length < 32) : ∃ rest,
    (List.range 32).map (strncpy str s) = s ++ str s.length :: rest := by
  have htake : ((List.range 32).map (strncpy str s)).take s.length = s := by
    apply List.ext_getElem
    · simp [h.le]
    · intro k h1 h2
      simp [strncpy_of_lt h2]
  have hlen : s.length < ((List.range 32).map (strncpy str s)).length := by simpa using h
  refine ⟨((List.range 32).map (strncpy str s)).drop (s.length + 1), ?_⟩
  calc
    (List.range 32).map (strncpy str s) =
        ((List.range 32).map (strncpy str s)).take s.length ++
          ((List.range 32).map (strncpy str s)).drop s.length := (List.take_append_drop _ _).symm
    _ = s ++ str s.length :: ((List.range 32).map (strncpy str s)).drop (s.length + 1) := by
      rw [htake, List.drop_eq_getElem_cons hlen]
      simp [strncpy_of_ge (le_refl s.length)]

/-- A text that was copied is read again if and only if a null character follows
it. -/
theorem text_strncpy (hs : ∀ c ∈ s, c ≠ nul) :
    text (strncpy str s) = some s ↔ s.length < 32 ∧ str s.length = nul := by
  have hpos : ∀ c ∈ s, (c != nul) = true := by simpa using hs
  constructor
  · intro h
    unfold text at h
    dsimp only at h
    split_ifs at h with hlen
    have htake := Option.some.inj h
    rw [htake] at hlen
    obtain ⟨rest, heq⟩ : ∃ rest, (List.range 32).map (strncpy str s) = s ++ str s.length :: rest :=
      strncpy_split hlen
    refine ⟨hlen, ?_⟩
    by_contra hne
    rw [heq, List.takeWhile_append_of_pos hpos, List.takeWhile_cons_of_pos (by simpa using hne)] at htake
    have hlength := congrArg List.length htake
    simp at hlength
  · rintro ⟨hlen, hnul⟩
    obtain ⟨rest, heq⟩ : ∃ rest, (List.range 32).map (strncpy str s) = s ++ str s.length :: rest :=
      strncpy_split hlen
    have htake : ((List.range 32).map (strncpy str s)).takeWhile (· != nul) = s := by
      rw [heq, List.takeWhile_append_of_pos hpos, List.takeWhile_cons_of_neg (by simp [hnul]), List.append_nil]
    unfold text
    rw [htake]
    exact if_pos hlen

end Text

/-! ### Runs -/

/-- The expressions that were evaluated so far, each with any processor, symbols and
memory, and `tokens` after them. -/
inductive ExprRun : List (List Char) → Tokens → Prop where
  | init : ExprRun [] noTokens
  | call {calls : List (List Char)} {tokens tokens' : Tokens} {env : Env} {e : List Char} {r : Word × Bool}
      (h : ExprRun calls tokens) (hexpr : expr env e tokens = some (r, tokens')) :
      ExprRun (calls ++ [e]) tokens'

/-- The operands of `e` are read as they were matched. -/
def TextsRight (e : List Char) (tokens : Tokens) : Prop :=
  ∀ (i : ℕ) (t : TokenType × List Char), (tokensOf e)[i]? = some t → isOperand t.1 = true →
    text (put (tokensOf e) 0 tokens i).str = some t.2

/-- No earlier expression had a longer text in the entry of an operand of `e`, and
there is room for a null character. -/
def NoLonger (calls : List (List Char)) (e : List Char) : Prop :=
  ∀ (i : ℕ) (t : TokenType × List Char), (tokensOf e)[i]? = some t → isOperand t.1 = true →
    t.2.length < 32 ∧ ∀ e' ∈ calls, ∀ t' : TokenType × List Char, (tokensOf e')[i]? = some t' →
      t'.2.length ≤ t.2.length

section Runs

variable {calls : List (List Char)} {tokens tokens' : Tokens} {env : Env} {e : List Char}

/-- What `expr` leaves in the texts of the array. -/
theorem expr_str {r : Word × Bool} (h : expr env e tokens = some (r, tokens')) (i : ℕ) :
    (tokens' i).str = (put (tokensOf e) 0 tokens i).str := by
  unfold expr at h
  split_ifs at h
  rw [makeToken_eq] at h
  cases hrec : (lex e.length e).2 with
  | false =>
    rw [hrec] at h
    obtain ⟨-, rfl⟩ := Prod.mk.inj (Option.some.inj h)
    rfl
  | true =>
    rw [hrec] at h
    rcases Option.bind_eq_some_iff.mp h with ⟨v, -, heq⟩
    obtain ⟨-, rfl⟩ := Prod.mk.inj (Option.some.inj heq)
    rfl

/-- **The texts in the array.** A character is still null if and only if no
expression had a text beyond it. -/
theorem ExprRun.nul_iff (h : ExprRun calls tokens) (i k : ℕ) :
    (tokens i).str k = nul ↔ ∀ e ∈ calls, ∀ t, (tokensOf e)[i]? = some t → t.2.length ≤ k := by
  induction h with
  | init => exact iff_of_true rfl fun e he => (List.not_mem_nil he).elim
  | @call calls tokens tokens' env e r _ hexpr ih =>
    have hlast : (∀ e' ∈ calls ++ [e], ∀ t, (tokensOf e')[i]? = some t → t.2.length ≤ k) ↔
        (∀ e' ∈ calls, ∀ t, (tokensOf e')[i]? = some t → t.2.length ≤ k) ∧
          ∀ t, (tokensOf e)[i]? = some t → t.2.length ≤ k := by
      simp only [List.mem_append, List.mem_singleton, or_imp, forall_and, forall_eq]
    rw [hlast, ← ih, expr_str hexpr, put_zero]
    cases hi : (tokensOf e)[i]? with
    | none => exact ⟨fun hnul => ⟨hnul, fun _ h => nomatch h⟩, fun h => h.1⟩
    | some t =>
      simp only [Option.elim_some, Option.some.injEq, forall_eq']
      rcases Nat.lt_or_ge k t.2.length with hk | hk
      · have hne : t.2[k] ≠ nul := lex_clean _ e _ (List.mem_of_getElem? hi) _ (List.getElem_mem hk)
        rw [strncpy_of_lt hk]
        exact iff_of_false hne fun h => absurd h.2 (by omega)
      · rw [strncpy_of_ge hk]
        exact ⟨fun hnul => ⟨hnul, hk⟩, fun h => h.1⟩

/-- **The operands are read right** if and only if no longer text was there. -/
theorem textsRight_iff (h : ExprRun calls tokens) : TextsRight e tokens ↔ NoLonger calls e := by
  unfold TextsRight NoLonger
  refine forall_congr' fun i => forall_congr' fun t => forall_congr' fun hi => forall_congr' fun _ => ?_
  have hclean : ∀ c ∈ t.2, c ≠ nul := lex_clean _ e _ (List.mem_of_getElem? hi)
  rw [put_zero, hi, Option.elim_some, text_strncpy hclean, h.nul_iff]

end Runs

/-! ### What the value depends on -/

/-- A token without its text, unless it is an operand. -/
def strip (t : Token) : Token := ⟨t.type, if isOperand t.type then t.str else none⟩

section Strip

variable {env : Env} {l : List Token}

theorem evalToken_strip (t : Token) : evalToken env (strip t) = evalToken env t := by
  rcases t with ⟨type, str⟩
  cases type <;> first | rfl | (cases str <;> rfl)

theorem parentheses_strip (l : List Token) (count : ℤ) :
    parentheses (l.map strip) count = parentheses l count := by
  induction l generalizing count with
  | nil => rfl
  | cons t l ih => simp only [List.map_cons, parentheses, ih]; rfl

theorem checkParentheses_strip : checkParentheses (l.map strip) = checkParentheses l := by
  have hinner : ((l.map strip).drop 1).dropLast = ((l.drop 1).dropLast).map strip := by
    rw [← List.map_drop, ← List.map_dropLast]
  rw [checkParentheses, checkParentheses, hinner, parentheses_strip, List.head?_map, List.getLast?_map,
    Option.map_map, Option.map_map]
  rfl

theorem dominantScan_strip (l : List Token) (is : ℤ) (result priority : ℕ) :
    dominantScan (l.map strip) is result priority = dominantScan l is result priority := by
  induction l generalizing is result priority with
  | nil => rfl
  | cons t l ih => simp only [List.map_cons, dominantScan, ih, List.length_map]; rfl

theorem dominantOperator_strip : dominantOperator (l.map strip) = dominantOperator l := by
  rw [dominantOperator, ← List.map_reverse]
  exact dominantScan_strip _ _ _ _

/-- **The value** does not depend on the texts of operators. -/
theorem eval_strip (l : List Token) : eval env (l.map strip) = eval env l := by
  have hlength : ∀ {l : List Token}, 2 ≤ l.length → 2 ≤ (l.map strip).length := by
    intro l hlen
    rwa [List.length_map]
  have htype : ∀ (l : List Token) (i : ℕ), (l.map strip)[i]?.map (·.type) = l[i]?.map (·.type) := by
    intro l i
    rw [List.getElem?_map, Option.map_map]
    rfl
  induction l using tokens_induct with
  | nil => rfl
  | one t => simp only [List.map_cons, List.map_nil, eval, evalToken_strip]
  | check l hlen h ih =>
    rw [eval_check hlen h, eval_check (hlength hlen) (checkParentheses_strip.trans h), ← List.map_drop,
      ← List.map_dropLast, ih]
  | unary l hlen h hop ih =>
    rw [eval_unary hlen h hop, eval_unary (hlength hlen) (checkParentheses_strip.trans h)
      (dominantOperator_strip.trans hop), htype, ← List.map_drop, ih]
  | binary l hlen h hop ihl ihr =>
    rw [eval_binary hlen h hop, eval_binary (hlength hlen) (checkParentheses_strip.trans h)
      (by rwa [dominantOperator_strip]), dominantOperator_strip, htype, ← List.map_take, ← List.map_drop, ihl, ihr]

theorem reclassify_strip (check : Option TokenType) (l : List Token) :
    reclassify check (l.map strip) = (reclassify check l).map strip := by
  induction l generalizing check with
  | nil => rfl
  | cons t l ih =>
    have hoperand : isOperand (classified check t.type) = isOperand t.type := by
      unfold classified
      split_ifs with h1 h2 h3
      · rfl
      · rw [h2]
        rfl
      · rw [h3]
        rfl
      · rfl
    rw [List.map_cons, reclassify_cons, reclassify_cons, List.map_cons, ih]
    simp only [strip, hoperand]

theorem evalTokens_strip (l : List Token) : evalTokens env (l.map strip) = evalTokens env l := by
  rw [evalTokens, reclassify_strip, eval_strip]
  rfl

end Strip

/-! ### Independence -/

section Independence

variable {calls : List (List Char)} {tokens tokens' : Tokens} {env : Env} {e : List Char}

/-- The tokens of `e`, without the texts of operators, if its operands are read right. -/
theorem view_of_textsRight (h : TextsRight e tokens) :
    (view (put (tokensOf e) 0 tokens) (tokensOf e).length).map strip =
      (tokensOf e).map fun t => strip ⟨t.1, some t.2⟩ := by
  unfold view
  apply List.ext_getElem
  · simp
  · intro i h1 h2
    have hi : i < (tokensOf e).length := by simpa using h2
    have hget : (tokensOf e)[i]? = some (tokensOf e)[i] := List.getElem?_eq_getElem hi
    have htype : (put (tokensOf e) 0 tokens i).type = (tokensOf e)[i].1 := by
      rw [put_zero, hget]
      rfl
    simp only [List.getElem_map, List.getElem_range, strip, htype]
    split_ifs with hoperand
    · rw [h i _ hget hoperand]
    · rfl

/-- Where the operands are read right, the value is that of the first call. -/
theorem expr_eq_of_textsRight (h : recognised e = true → TextsRight e tokens)
    (h' : recognised e = true → TextsRight e tokens') :
    (expr env e tokens).map (·.1) = (expr env e tokens').map (·.1) := by
  unfold expr
  split_ifs
  · rfl
  · rw [makeToken_eq, makeToken_eq]
    cases hrec : (lex e.length e).2 with
    | false => rfl
    | true =>
      have hview := (view_of_textsRight (h hrec)).trans (view_of_textsRight (h' hrec)).symm
      have hval : evalTokens env (view (put (tokensOf e) 0 tokens) (tokensOf e).length) =
          evalTokens env (view (put (tokensOf e) 0 tokens') (tokensOf e).length) := by
        rw [← evalTokens_strip, hview, evalTokens_strip]
      simp only [Nat.zero_add]
      change ((evalTokens env (view (put (tokensOf e) 0 tokens) (tokensOf e).length)).bind _).map _ =
        ((evalTokens env (view (put (tokensOf e) 0 tokens') (tokensOf e).length)).bind _).map _
      rw [hval]
      cases evalTokens env (view (put (tokensOf e) 0 tokens') (tokensOf e).length) <;> rfl

/-- **Independence of earlier expressions.** After any calls, `e` is evaluated with its
own texts, and with the result of a first call, if and only if (unless it is not
recognised) none of them had a longer text in the entry of an operand of `e`. -/
theorem exprRun_independent_iff (h : ExprRun calls tokens) :
    ((recognised e = true → TextsRight e tokens) ∧
      (expr env e tokens).map (·.1) = (expr env e noTokens).map (·.1)) ↔
    (recognised e = true → NoLonger calls e) := by
  constructor
  · intro hright hrec
    exact (textsRight_iff h).mp (hright.1 hrec)
  · intro hlonger
    have hright : recognised e = true → TextsRight e tokens := fun hrec => (textsRight_iff h).mpr (hlonger hrec)
    refine ⟨hright, expr_eq_of_textsRight hright fun hrec => (textsRight_iff .init).mpr ?_⟩
    intro i t hi hoperand
    exact ⟨(hlonger hrec i t hi hoperand).1, fun e' he' => (List.not_mem_nil he').elim⟩

end Independence

/-- An expression of one token. -/
theorem expr_one {env : Env} {e : List Char} {tokens tokens' : Tokens} {t : Token} {v : Word}
    (hlen : e.length ≤ 32) (hmake : makeToken e.length e tokens 0 = (true, tokens', 1))
    (hview : view tokens' 1 = [t]) (hv : evalToken env ⟨classified none t.type, t.str⟩ = some v) :
    expr env e tokens = some ((v, true), retype (reclassify none [t]) tokens') := by
  have hval : evalTokens env [t] = some v := by
    rw [evalTokens, reclassify_cons, reclassify, eval]
    exact hv
  rw [expr, if_neg (Nat.not_lt.mpr hlen), hmake]
  simp [hview, hval]

/-- `1+1` after `2`. -/
theorem exprRun_independent_iff_sum : ∃ tokens, ExprRun [['2']] tokens ∧
    (((recognised ['1', '+', '1'] = true → TextsRight ['1', '+', '1'] tokens) ∧
      (expr noEnv ['1', '+', '1'] tokens).map (·.1) = (expr noEnv ['1', '+', '1'] noTokens).map (·.1)) ↔
    (recognised ['1', '+', '1'] = true → NoLonger [['2']] ['1', '+', '1'])) := by
  have hrun : ExprRun [['2']] _ :=
    .call .init (show expr noEnv ['2'] noTokens = _ from expr_one (v := 2) (by decide) rfl rfl rfl)
  exact ⟨_, hrun, exprRun_independent_iff hrun⟩

/-- `1` after `12`: it has the value 12. -/
theorem expr_reads_stale : ∃ tokens, ExprRun [['1', '2']] tokens ∧
    (expr noEnv ['1'] tokens).map (·.1) = some (12, true) ∧
    (expr noEnv ['1'] noTokens).map (·.1) = some (1, true) := by
  have hrun : ExprRun [['1', '2']] _ :=
    .call .init (show expr noEnv ['1', '2'] noTokens = _ from expr_one (v := 12) (by decide) rfl rfl rfl)
  refine ⟨_, hrun, ?_, ?_⟩
  · rw [expr_one (v := 12) (by decide) rfl rfl rfl]
    rfl
  · rw [expr_one (v := 1) (by decide) rfl rfl rfl]
    rfl

end Debug

end Nemu
