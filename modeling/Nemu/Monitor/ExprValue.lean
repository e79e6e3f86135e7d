/-
# Expressions and their C value

What an expression means in C, and what `eval` makes of its tokens: it takes `&&`
and `||` as operators of one priority, evaluates both of their operands, and takes
a `-` or a `*` after a symbol for a unary operator. Of two unary operators, one
right after the other, it evaluates the second one without its operand. It does not
know `$ch`, `$dh` and `$bh`.

`eval` splits tokens at `dominantOperator`. On the tokens of an expression that is
proper for the priorities of that function, this is the operator at the root.

Key definitions: `CExpr`, `prec`, `flat`, `value`, `strict`, `Spaced`,
`NamesFit`, `RegsFound`.
Key theorems: `dominantOperator_binary`, `eval_tokens`, `good_of_eval`,
`evalTokens_eq_some`.
-/
import Nemu.Monitor.Expr
import Nemu.Lib.Infix
import Mathlib.Data.List.TakeWhile

namespace Nemu

open Bytes

namespace Debug

open Infix

/-! ### Expressions -/

inductive Atom where
  | dec (s : List Char)
  | hex (s : List Char)
  | reg (s : List Char)
  | sym (s : List Char)

inductive Unary where
  | neg | deref | not

inductive Binary where
  | add | sub | mul | div | eq | neq | and | or

abbrev CExpr := Infix Atom Unary Binary

abbrev CItem := Item Atom Unary Binary

/-- The precedence of C. -/
def prec : Binary → ℕ
  | .or => 0
  | .and => 1
  | .eq | .neq => 2
  | .add | .sub => 3
  | .mul | .div => 4

/-- The priorities of `dominant_operator`. -/
def flat : Binary → ℕ
  | .or | .and => 0
  | .eq | .neq => 1
  | .add | .sub => 2
  | .mul | .div => 3

/-- A number has digits. -/
def Atom.Wf : Atom → Prop
  | dec s => s ≠ [] ∧ ∀ c ∈ s, c.isDigit = true
  | hex s => s ≠ [] ∧ ∀ c ∈ s, isHex c = true
  | _ => True

def Numbers (e : CExpr) : Prop := ∀ a, .atom a ∈ items e → a.Wf

/-! ### Values -/

section Values

variable (env : Env)

/-- The first object with the name. -/
def objectNamed (s : List Char) (symtab : List Symbol) : Option Word :=
  (symtab.find? fun y => y.isObject && y.name == s).map (·.value)

/-- The registers that `eval` does not know. -/
def highBytes (c : CpuState) : List (String × Word) :=
  [("ch", c.reg .b 5), ("dh", c.reg .b 6), ("bh", c.reg .b 7)]

/-- The register with the name. -/
def registerNamed (c : CpuState) (s : List Char) : Option Word :=
  ((registers c ++ highBytes c).find? fun r => r.1.toList == s).map (·.2)

def Atom.value : Atom → Option Word
  | dec s => fits (numeral 10 s)
  | hex s => fits (numeral 16 s)
  | reg s => registerNamed env.cpu s
  | sym s => objectNamed s env.symtab

def Unary.apply : Unary → Word → Option Word
  | neg, v => some (-v)
  | deref, v => env.read v
  | not, v => some (boolWord (v == 0))

def Binary.apply : Binary → Word → Word → Option Word
  | add, a, b => some (a + b)
  | sub, a, b => some (a - b)
  | mul, a, b => some (a * b)
  | div, a, b => if b = 0 then none else some (a / b)
  | eq, a, b => some (boolWord (a == b))
  | neq, a, b => some (boolWord (a != b))
  | and, a, b => some (boolWord (a != 0 && b != 0))
  | or, a, b => some (boolWord (a != 0 || b != 0))

/-- The value in C, where `&&` and `||` do not always evaluate their second
operand. -/
def value : CExpr → Option Word
  | .atom a => a.value env
  | .paren e => value e
  | .unary u e => do u.apply env (← value e)
  | .binary .and l r => do
    if (← value l) = 0 then some 0 else some (boolWord ((← value r) != 0))
  | .binary .or l r => do
    if (← value l) ≠ 0 then some 1 else some (boolWord ((← value r) != 0))
  | .binary o l r => do o.apply (← value l) (← value r)

/-- The value, with all operands evaluated, where `f` gives those of the atoms. -/
def strictWith (f : Atom → Option Word) : CExpr → Option Word
  | .atom a => f a
  | .paren e => strictWith f e
  | .unary u e => do u.apply env (← strictWith f e)
  | .binary o l r => do o.apply (← strictWith f l) (← strictWith f r)

def strict : CExpr → Option Word := strictWith env (·.value env)

end Values

/-! ### Tokens -/

def Atom.token : Atom → Token
  | dec s => ⟨.num, some s⟩
  | hex s => ⟨.hexnum, some ('0' :: 'x' :: s)⟩
  | reg s => ⟨.register, some s⟩
  | sym s => ⟨.mark, some s⟩

def Binary.token : Binary → Token
  | add => ⟨.plus, some ['+']⟩
  | sub => ⟨.sub, some ['-']⟩
  | mul => ⟨.mul, some ['*']⟩
  | div => ⟨.div, some ['/']⟩
  | eq => ⟨.eq, some ['=', '=']⟩
  | neq => ⟨.neq, some ['!', '=']⟩
  | and => ⟨.and, some ['&', '&']⟩
  | or => ⟨.or, some ['|', '|']⟩

/-- The token that `make_token` recognises. -/
def raw : CItem → Token
  | .atom a => a.token
  | .unary .neg => ⟨.sub, some ['-']⟩
  | .unary .deref => ⟨.mul, some ['*']⟩
  | .unary .not => ⟨.not, some ['!']⟩
  | .binary o => o.token
  | .lpar => ⟨.lpar, some ['(']⟩
  | .rpar => ⟨.rpar, some [')']⟩

/-- The token that it should be for `eval`. -/
def token : CItem → Token
  | .unary .neg => ⟨.minus, some ['-']⟩
  | .unary .deref => ⟨.star, some ['*']⟩
  | i => raw i

def tokens (e : CExpr) : List Token := (items e).map token

/-! ### Where `eval` gives the value -/

/-- No unary operator right after a unary one, no binary `-` or `*` right after a
symbol. -/
def Apart : CItem → CItem → Prop
  | .unary _, .unary _ => False
  | .atom (.sym _), .binary .sub => False
  | .atom (.sym _), .binary .mul => False
  | _, _ => True

def Spaced (e : CExpr) : Prop := List.IsChain Apart (items e)

/-- No unary operator right after a unary one. -/
def Unstacked : CItem → CItem → Prop
  | .unary _, .unary _ => False
  | _, _ => True

def Single (e : CExpr) : Prop := List.IsChain Unstacked (items e)

/-- No object up to the one with the name `s` has a name of 32 characters or
more. -/
def NameFits (s : List Char) (symtab : List Symbol) : Prop :=
  ∀ l y r, symtab = l ++ y :: r → (∀ x ∈ l, ¬ (x.isObject = true ∧ x.name = s)) →
    y.isObject = true → y.name.length < 32

def NamesFit (env : Env) (e : CExpr) : Prop := ∀ s, .atom (.sym s) ∈ items e → NameFits s env.symtab

/-- `$ch`, `$dh` and `$bh`. -/
def IsHighByte (s : List Char) : Prop := s ∈ ["ch".toList, "dh".toList, "bh".toList]

/-- None of the registers that `eval` does not know. -/
def RegsFound (e : CExpr) : Prop := ∀ s, .atom (.reg s) ∈ items e → ¬ IsHighByte s

section Tokens

variable {e l r : CExpr} {o : Binary} {u : Unary} {a : Atom}

@[simp] theorem tokens_atom : tokens (.atom a) = [a.token] := rfl

@[simp] theorem tokens_paren :
    tokens (.paren e) = token .lpar :: (tokens e ++ [token .rpar]) := by
  simp [tokens, items]

@[simp] theorem tokens_unary : tokens (.unary u e) = token (.unary u) :: tokens e := rfl

@[simp] theorem tokens_binary : tokens (.binary o l r) = tokens l ++ o.token :: tokens r := by
  simp [tokens, items, token, raw]

/-- The tokens from the last one to the first. -/
theorem reverse_paren (e : CExpr) (rest : List Token) : (tokens (.paren e)).reverse ++ rest =
    token .rpar :: ((tokens e).reverse ++ token .lpar :: rest) := by
  simp

theorem reverse_unary (u : Unary) (e : CExpr) (rest : List Token) :
    (tokens (.unary u e)).reverse ++ rest = (tokens e).reverse ++ token (.unary u) :: rest := by
  simp

theorem reverse_binary (o : Binary) (l r : CExpr) (rest : List Token) :
    (tokens (.binary o l r)).reverse ++ rest =
      (tokens r).reverse ++ o.token :: ((tokens l).reverse ++ rest) := by
  simp

theorem tokens_ne_nil (e : CExpr) : tokens e ≠ [] := by
  simp [tokens, items_ne_nil]

/-- What is the same for all atoms, and for all unary and binary operators. -/
@[simp] theorem Atom.isOperand_token (a : Atom) : isOperand a.token.type = true := by cases a <;> rfl

@[simp] theorem Atom.closing_token (a : Atom) : closing a.token.type = 0 := by cases a <;> rfl

@[simp] theorem Binary.isOperand_token (o : Binary) : isOperand o.token.type = false := by cases o <;> rfl

@[simp] theorem Binary.closing_token (o : Binary) : closing o.token.type = 0 := by cases o <;> rfl

theorem Binary.priorityOf_token (h : 1 ≤ flat o) :
    priorityOf o.token.type = some (flat o) ∧ ¬ (o.token.type = .and ∨ o.token.type = .or) := by
  cases o <;> first | exact absurd h (by decide) | exact ⟨rfl, by decide⟩

theorem Binary.type_token (h : flat o = 0) : o.token.type = .and ∨ o.token.type = .or := by
  cases o <;> first | exact absurd h (by decide) | decide

theorem flat_lt (o : Binary) : flat o < 4 := by cases o <;> decide

@[simp] theorem isOperand_unary (u : Unary) : isOperand (token (.unary u)).type = false := by cases u <;> rfl

@[simp] theorem closing_unary (u : Unary) : closing (token (.unary u)).type = 0 := by cases u <;> rfl

@[simp] theorem priorityOf_unary (u : Unary) : priorityOf (token (.unary u)).type = some 4 := by
  cases u <;> rfl

end Tokens

/-! ### The dominant operator -/

section Scan

variable {t : Token} {rest : List Token} {is : ℤ} {result priority : ℕ}

/-- Inside parentheses, and at an operand, the loop goes on. -/
theorem dominantScan_skip (h : isOperand t.type = true ∨ is + closing t.type ≠ 0) :
    dominantScan (t :: rest) is result priority =
      dominantScan rest (is + closing t.type) result priority := by
  rw [dominantScan, if_pos h]

/-- At `&&` and `||` it ends. -/
theorem dominantScan_logic (h : t.type = .and ∨ t.type = .or) :
    dominantScan (t :: rest) 0 result priority = rest.length := by
  rcases h with h | h <;> simp [dominantScan, h, isOperand, closing]

/-- At another operator it takes the one with the smaller priority. -/
theorem dominantScan_operator {k : ℕ} (hk : priorityOf t.type = some k) :
    dominantScan (t :: rest) 0 result priority =
      if priority > k then dominantScan rest 0 rest.length k else dominantScan rest 0 result priority := by
  have hclosing : closing t.type = 0 := by
    cases h : t.type <;> rw [h] at hk <;> first | rfl | exact nomatch hk
  have hoperand : isOperand t.type = false := by
    cases h : t.type <;> rw [h] at hk <;> first | rfl | exact nomatch hk
  have hlogic : ¬ (t.type = .and ∨ t.type = .or) := by
    rintro (h | h) <;> rw [h] at hk <;> exact nomatch hk
  rw [dominantScan]
  simp [hclosing, hoperand, hlogic, hk]

/-- Inside parentheses an expression is passed over. -/
theorem dominantScan_deep (e : CExpr) (rest : List Token) (his : 0 < is) :
    dominantScan ((tokens e).reverse ++ rest) is result priority = dominantScan rest is result priority := by
  induction e generalizing rest is with
  | atom a =>
    simp only [tokens_atom, List.reverse_singleton, List.singleton_append]
    rw [dominantScan_skip (.inl a.isOperand_token), a.closing_token, add_zero]
  | paren e ih =>
    have hr : closing (token .rpar).type = 1 := rfl
    have hl : closing (token .lpar).type = -1 := rfl
    rw [reverse_paren, dominantScan_skip (.inr (by omega)), hr, ih _ (by omega),
      dominantScan_skip (.inr (by omega)), hl]
    congr 1
    omega
  | unary u e ih =>
    have hu : closing (token (.unary u)).type = 0 := closing_unary u
    rw [reverse_unary, ih _ his, dominantScan_skip (.inr (by omega)), hu, add_zero]
  | binary o l r ihl ihr =>
    have ho : closing o.token.type = 0 := o.closing_token
    rw [reverse_binary, ihr _ his, dominantScan_skip (.inr (by omega)), ho, add_zero, ihl _ his]

theorem dominantScan_atom (a : Atom) (rest : List Token) :
    dominantScan ((tokens (.atom a)).reverse ++ rest) 0 result priority =
      dominantScan rest 0 result priority := by
  simp only [tokens_atom, List.reverse_singleton, List.singleton_append]
  rw [dominantScan_skip (.inl a.isOperand_token), a.closing_token, add_zero]

theorem dominantScan_paren (e : CExpr) (rest : List Token) :
    dominantScan ((tokens (.paren e)).reverse ++ rest) 0 result priority =
      dominantScan rest 0 result priority := by
  have hr : closing (token .rpar).type = 1 := rfl
  rw [reverse_paren, dominantScan_skip (.inr (by omega)), hr, dominantScan_deep e _ (by omega)]
  simp [dominantScan, token, raw, closing, isOperand, priorityOf]

/-- The left operand of the operator found does not change the result. -/
theorem dominantScan_left {e : CExpr} (he : Proper flat e) (habove : Above flat priority e)
    (h1 : 1 ≤ priority) (h4 : priority ≤ 4) (rest : List Token) :
    dominantScan ((tokens e).reverse ++ rest) 0 result priority = dominantScan rest 0 result priority := by
  induction e generalizing rest with
  | atom a => exact dominantScan_atom a rest
  | paren e _ => exact dominantScan_paren e rest
  | unary u e ih =>
    rw [reverse_unary, ih he.2 he.1.above, dominantScan_operator (priorityOf_unary u), if_neg (by omega)]
  | binary o l r ihl ihr =>
    rcases he with ⟨hl, hr, hpl, hpr⟩
    have hle : priority ≤ flat o := habove
    have ho := (Binary.priorityOf_token (h1.trans hle)).1
    rw [reverse_binary, ihr hpr (hr.mono (Nat.le_succ_of_le hle)), dominantScan_operator ho, if_neg (by omega),
      ihl hpl (hl.mono hle)]

/-- In the right operand only operators of a greater priority are found. -/
theorem dominantScan_right {e : CExpr} {p : ℕ} (he : Proper flat e) (habove : Above flat (p + 1) e)
    (hp : p < 4) (hlt : p < priority) (rest : List Token) :
    ∃ result' priority', p < priority' ∧
      dominantScan ((tokens e).reverse ++ rest) 0 result priority =
        dominantScan rest 0 result' priority' := by
  induction e generalizing rest result priority with
  | atom a => exact ⟨_, _, hlt, dominantScan_atom a rest⟩
  | paren e _ => exact ⟨_, _, hlt, dominantScan_paren e rest⟩
  | unary u e ih =>
    rw [reverse_unary]
    rcases ih he.2 he.1.above hlt (token (.unary u) :: rest) with ⟨result', priority', hlt', heq⟩
    rw [heq, dominantScan_operator (priorityOf_unary u)]
    split_ifs
    · exact ⟨_, _, hp, rfl⟩
    · exact ⟨_, _, hlt', rfl⟩
  | binary o l r ihl ihr =>
    rcases he with ⟨hl, hr, hpl, hpr⟩
    have hle : p + 1 ≤ flat o := habove
    have ho := (Binary.priorityOf_token (o := o) (by omega)).1
    rw [reverse_binary]
    rcases ihr hpr (hr.mono (Nat.le_succ_of_le hle)) hlt (o.token :: ((tokens l).reverse ++ rest)) with
      ⟨result', priority', hlt', heq⟩
    rw [heq, dominantScan_operator ho]
    split_ifs
    · exact ihl hpl (hl.mono hle) hle rest
    · exact ihl hpl (hl.mono hle) hlt' rest

/-- **The dominant operator** is the one at the root. -/
theorem dominantOperator_binary {o : Binary} {l r : CExpr} (h : Proper flat (.binary o l r)) :
    dominantOperator (tokens (.binary o l r)) = (tokens l).length := by
  rcases h with ⟨hl, hr, hpl, hpr⟩
  have hlt : flat o < 100 := (flat_lt o).trans (by decide)
  unfold dominantOperator
  rw [← List.append_nil (tokens (.binary o l r)).reverse, reverse_binary, List.append_nil]
  rcases dominantScan_right hpr hr (flat_lt o) hlt (o.token :: (tokens l).reverse) with
    ⟨result, priority, hp, heq⟩
  rw [heq]
  rcases Nat.eq_zero_or_pos (flat o) with h0 | h0
  · rw [dominantScan_logic (Binary.type_token h0), List.length_reverse]
  · have hleft : dominantScan ((tokens l).reverse ++ []) 0 (tokens l).reverse.length (flat o) =
        dominantScan [] 0 (tokens l).reverse.length (flat o) :=
      dominantScan_left hpl hl h0 (flat_lt o).le []
    rw [List.append_nil] at hleft
    rw [dominantScan_operator (Binary.priorityOf_token h0).1, if_pos hp, hleft, dominantScan,
      List.length_reverse]

/-- The dominant operator of an operator and one operand. -/
theorem dominantOperator_unary {u : Unary} {e : CExpr}
    (h : ∀ rest, dominantScan ((tokens e).reverse ++ rest) 0 0 100 = dominantScan rest 0 0 100) :
    dominantOperator (tokens (.unary u e)) = 0 := by
  unfold dominantOperator
  rw [← List.append_nil (tokens (.unary u e)).reverse, reverse_unary, h,
    dominantScan_operator (priorityOf_unary u), if_pos (by decide)]
  rfl

end Scan

/-! ### Parentheses -/

section Parentheses

variable {e l r : CExpr} {rest : List Token} {count : ℤ}

/-- The parentheses of an expression match. -/
theorem parentheses_tokens (e : CExpr) (rest : List Token) (hc : 0 ≤ count) :
    parentheses (tokens e ++ rest) count = parentheses rest count := by
  induction e generalizing rest count with
  | atom a => simp [parentheses, Int.not_lt.mpr hc]
  | paren e ih =>
    have hl : closing (token .lpar).type = -1 := rfl
    have hr : closing (token .rpar).type = 1 := rfl
    simp only [tokens_paren, List.cons_append, List.append_assoc, List.nil_append, parentheses, hl]
    rw [if_neg (by omega), ih _ (by omega), parentheses, hr, if_neg (by omega)]
    congr 1
    omega
  | unary u e ih =>
    simp only [tokens_unary, List.cons_append, parentheses, closing_unary, sub_zero]
    rw [if_neg (by omega), ih _ hc]
  | binary o l r ihl ihr =>
    simp only [tokens_binary, List.append_assoc, List.cons_append]
    rw [ihl _ hc, parentheses]
    simp only [Binary.closing_token, sub_zero]
    rw [if_neg (by omega), ihr _ hc]

theorem checkParentheses_paren : checkParentheses (tokens (.paren e)) = true := by
  have h := parentheses_tokens e [] (le_refl 0)
  rw [List.append_nil] at h
  simp [checkParentheses, List.getLast?_cons, h, parentheses, token, raw]

/-- An opening parenthesis at the start is closed in the expression. -/
theorem tokens_lpar (h : ((tokens e).head?.map (·.type)) = some .lpar) :
    ∃ e' rest, tokens e = token .lpar :: (tokens e' ++ token .rpar :: rest) := by
  induction e with
  | atom a => cases a <;> exact nomatch h
  | paren e _ => exact ⟨e, [], tokens_paren⟩
  | unary u e _ => cases u <;> exact nomatch h
  | binary o l r ihl _ =>
    have hhead : (tokens l).head?.map (·.type) = some .lpar := by
      rw [tokens_binary, List.head?_append_of_ne_nil _ (tokens_ne_nil l)] at h
      exact h
    rcases ihl hhead with ⟨e', rest, heq⟩
    exact ⟨e', rest ++ o.token :: tokens r, by simp [heq]⟩

theorem checkParentheses_unary {u : Unary} : checkParentheses (tokens (.unary u e)) = false := by
  cases u <;> simp [checkParentheses, token, raw]

/-- The operator at the root is outside of the parentheses. -/
theorem checkParentheses_binary {o : Binary} : checkParentheses (tokens (.binary o l r)) = false := by
  by_cases h : ((tokens (.binary o l r)).head?.map (·.type)) = some .lpar
  · have hhead : (tokens l).head?.map (·.type) = some .lpar := by
      rw [tokens_binary, List.head?_append_of_ne_nil _ (tokens_ne_nil l)] at h
      exact h
    rcases tokens_lpar hhead with ⟨e', rest, heq⟩
    have hne : rest ++ o.token :: tokens r ≠ [] := by simp
    have hr : closing (token .rpar).type = 1 := rfl
    have hinner : ((tokens (.binary o l r)).drop 1).dropLast =
        tokens e' ++ token .rpar :: (rest ++ o.token :: tokens r).dropLast := by
      rw [tokens_binary, heq]
      simp only [List.cons_append, List.append_assoc, List.drop_succ_cons, List.drop_zero]
      rw [List.dropLast_append_of_ne_nil (by simp), List.dropLast_cons_of_ne_nil hne]
    have hnone : parentheses ((tokens (.binary o l r)).drop 1).dropLast 0 = none := by
      rw [hinner, parentheses_tokens e' _ (le_refl 0), parentheses, hr]
      rfl
    rw [checkParentheses, hnone]
    exact Bool.and_false _
  · rw [checkParentheses, beq_eq_false_iff_ne.mpr h]
    rfl

end Parentheses

/-! ### The value of proper tokens -/

section Eval

variable {env : Env} {l : List Token}

theorem eval_check (hlen : 2 ≤ l.length) (h : checkParentheses l = true) :
    eval env l = eval env (l.drop 1).dropLast := by
  rcases l with - | ⟨t, - | ⟨u, l⟩⟩
  · simp at hlen
  · simp at hlen
  · rw [eval]
    exact if_pos h

theorem eval_unary (hlen : 2 ≤ l.length) (h : checkParentheses l = false) (hop : dominantOperator l = 0) :
    eval env l = (eval env (l.drop 1)).bind (evalUnary env (l[0]?.map (·.type))) := by
  rcases l with - | ⟨t, - | ⟨u, l⟩⟩
  · simp at hlen
  · simp at hlen
  · rw [eval]
    simp [h, hop]

theorem eval_binary (hlen : 2 ≤ l.length) (h : checkParentheses l = false) (hop : dominantOperator l ≠ 0) :
    eval env l = (eval env (l.take (dominantOperator l))).bind fun val1 =>
      (eval env (l.drop (dominantOperator l + 1))).bind
        (evalBinary (l[dominantOperator l]?.map (·.type)) val1) := by
  rcases l with - | ⟨t, - | ⟨u, l⟩⟩
  · simp at hlen
  · simp at hlen
  · rw [eval]
    simp [h, hop]

/-- Induction along `eval`. -/
theorem tokens_induct {motive : List Token → Prop} (nil : motive []) (one : ∀ t, motive [t])
    (check : ∀ l : List Token, 2 ≤ l.length → checkParentheses l = true →
      motive (l.drop 1).dropLast → motive l)
    (unary : ∀ l : List Token, 2 ≤ l.length → checkParentheses l = false → dominantOperator l = 0 →
      motive (l.drop 1) → motive l)
    (binary : ∀ l : List Token, 2 ≤ l.length → checkParentheses l = false → dominantOperator l ≠ 0 →
      motive (l.take (dominantOperator l)) → motive (l.drop (dominantOperator l + 1)) → motive l)
    (l : List Token) : motive l := by
  induction hn : l.length using Nat.strong_induction_on generalizing l with
  | _ n ih =>
    subst hn
    rcases l with - | ⟨t, - | ⟨u, l⟩⟩
    · exact nil
    · exact one t
    have hlen : 2 ≤ (t :: u :: l).length := by simp
    have hop : dominantOperator (t :: u :: l) < (t :: u :: l).length :=
      dominantOperator_lt (List.cons_ne_nil _ _)
    have hdrop : ∀ n, 1 ≤ n → ((t :: u :: l).drop n).length < (t :: u :: l).length := by
      intro n hn
      rw [List.length_drop]
      omega
    cases h : checkParentheses (t :: u :: l) with
    | true =>
      apply check _ hlen h
      exact ih _ (lt_of_le_of_lt (List.dropLast_sublist _).length_le (hdrop 1 le_rfl)) _ rfl
    | false =>
      by_cases h0 : dominantOperator (t :: u :: l) = 0
      · apply unary _ hlen h h0
        exact ih _ (hdrop 1 le_rfl) _ rfl
      · apply binary _ hlen h h0
        · exact ih _ (lt_of_le_of_lt (List.length_take_le ..) hop) _ rfl
        · exact ih _ (hdrop _ (Nat.le_add_left ..)) _ rfl

theorem evalUnary_token (u : Unary) (v : Word) :
    evalUnary env (some (token (.unary u)).type) v = u.apply env v := by
  cases u <;> rfl

theorem evalBinary_token (o : Binary) (a b : Word) :
    evalBinary (some o.token.type) a b = o.apply a b := by
  cases o <;> rfl

theorem Spaced.single {e : CExpr} (h : Spaced e) : Single e := by
  apply List.IsChain.imp _ h
  rintro (_ | _ | _ | _ | _) (_ | _ | _ | _ | _) hap <;> trivial

/-- A tight expression after a unary operator is an atom or in parentheses. -/
theorem primary_of_single {u : Unary} {e : CExpr} (ht : Tight e) (hs : Single (.unary u e)) :
    (∃ a, e = .atom a) ∨ ∃ e', e = .paren e' := by
  cases e with
  | atom a => exact .inl ⟨a, rfl⟩
  | paren e' => exact .inr ⟨e', rfl⟩
  | unary u' e' =>
    have hpair := (List.isChain_cons.mp hs).1 (.unary u') rfl
    exact hpair.elim
  | binary o l r => exact ht.elim

theorem Single.binary {o : Binary} {e e' : CExpr} (h : Single (.binary o e e')) : Single e ∧ Single e' := by
  have happ := List.isChain_append.mp (show List.IsChain Unstacked (items e ++ _) from h)
  exact ⟨happ.1, (List.isChain_cons.mp happ.2.1).2⟩

theorem Single.paren {e : CExpr} (h : Single (.paren e)) : Single e :=
  (List.isChain_append.mp (List.isChain_cons.mp h).2).1

theorem Single.unary {u : Unary} {e : CExpr} (h : Single (.unary u e)) : Single e :=
  (List.isChain_cons.mp h).2

/-- **The value of proper tokens.** `eval` computes it along the expression. -/
theorem eval_tokens {e : CExpr} (he : Proper flat e) (hs : Single e) :
    eval env (tokens e) = strictWith env (fun a => evalToken env a.token) e := by
  induction e with
  | atom a => rw [tokens_atom, eval]; rfl
  | paren e ih =>
    rw [eval_check (by simp) checkParentheses_paren, strictWith, ← ih he hs.paren]
    simp
  | unary u e ih =>
    have hpos : 0 < (tokens e).length := List.length_pos_iff.mpr (tokens_ne_nil e)
    have hop : dominantOperator (tokens (.unary u e)) = 0 := by
      apply dominantOperator_unary
      rcases primary_of_single he.1 hs with ⟨a, rfl⟩ | ⟨e', rfl⟩
      · exact dominantScan_atom a
      · exact dominantScan_paren e'
    rw [eval_unary (by rw [tokens_unary, List.length_cons]; omega) checkParentheses_unary hop, strictWith,
      ← ih he.2 hs.unary]
    simp only [tokens_unary, List.drop_succ_cons, List.drop_zero, List.getElem?_cons_zero, Option.map_some]
    congr 1
    funext v
    exact evalUnary_token u v
  | binary o l r ihl ihr =>
    have hposl : 0 < (tokens l).length := List.length_pos_iff.mpr (tokens_ne_nil l)
    have hposr : 0 < (tokens r).length := List.length_pos_iff.mpr (tokens_ne_nil r)
    have hop := dominantOperator_binary he
    have htake : (tokens l ++ o.token :: tokens r).take (tokens l).length = tokens l := List.take_left
    have hdrop : (tokens l ++ o.token :: tokens r).drop ((tokens l).length + 1) = tokens r := by
      simp [List.drop_append]
    have hget : (tokens l ++ o.token :: tokens r)[(tokens l).length]? = some o.token := by simp
    rw [eval_binary (by rw [tokens_binary, List.length_append, List.length_cons]; omega)
      checkParentheses_binary (by omega), hop, strictWith, ← ihl he.2.2.1 hs.binary.1,
      ← ihr he.2.2.2 hs.binary.2, tokens_binary, htake, hdrop, hget]
    simp only [Option.map_some]
    congr 1
    funext a
    congr 1
    funext b
    exact evalBinary_token o a b

end Eval

/-! ### Tokens without a value -/

/-- The types that `eval` takes for unary operators. -/
def isUnary : TokenType → Bool
  | .minus | .star | .not => true
  | _ => false

/-- An operand, or a unary operator. -/
def blocks (t : TokenType) : Bool := isOperand t || t == .rpar || isUnary t

/-- A unary operator stands at the start of an operand. -/
def Good (t u : Token) : Prop := isUnary u.type = true → blocks t.type = false

/-- The closing parentheses of tokens, less the opening ones. -/
def closings (l : List Token) : ℤ := (l.map fun t => closing t.type).sum

section Good

variable {env : Env} {l l' : List Token} {t u : Token} {is : ℤ} {result priority : ℕ}

@[simp] theorem closings_nil : closings [] = 0 := rfl

@[simp] theorem closings_cons : closings (t :: l) = closing t.type + closings l := by simp [closings]

@[simp] theorem closings_append : closings (l ++ l') = closings l + closings l' := by simp [closings]

@[simp] theorem closings_reverse : closings l.reverse = closings l := by
  simp [closings, List.sum_reverse]

theorem isUnary_iff {type : TokenType} : isUnary type = true ↔ priorityOf type = some 4 := by
  cases type <;> decide

theorem evalUnary_isUnary {type : TokenType} {v w : Word} (h : evalUnary env (some type) v = some w) :
    isUnary type = true := by
  cases type <;> first | rfl | exact nomatch h

/-- The type is that of a binary operator. -/
theorem evalBinary_binary {type : TokenType} {a b v : Word} (h : evalBinary (some type) a b = some v) :
    isUnary type = false ∧ blocks type = false ∧ closing type = 0 := by
  cases type <;> first | exact ⟨rfl, rfl, rfl⟩ | exact nomatch h

/-- What is found is outside of the parentheses to its right. -/
theorem dominantScan_split (l : List Token) (h : dominantScan l is result priority ≠ result) :
    ∃ m t rest, l = m ++ t :: rest ∧ dominantScan l is result priority = rest.length ∧
      is + closings m + closing t.type = 0 := by
  induction l generalizing is result priority with
  | nil => exact absurd rfl h
  | cons t l ih =>
    by_cases hskip : isOperand t.type = true ∨ is + closing t.type ≠ 0
    · rw [dominantScan_skip hskip] at h ⊢
      rcases ih h with ⟨m, u, rest, rfl, hlen, hzero⟩
      refine ⟨t :: m, u, rest, rfl, hlen, ?_⟩
      rw [closings_cons]
      omega
    · have hzero : is + closing t.type = 0 := by
        by_contra hne
        exact hskip (.inr hne)
      have hfound : ∀ k, dominantScan l 0 l.length k = dominantScan (t :: l) is result priority →
          ∃ m u rest, t :: l = m ++ u :: rest ∧
            dominantScan (t :: l) is result priority = rest.length ∧
              is + closings m + closing u.type = 0 := by
        intro k hk
        by_cases hsame : dominantScan l 0 l.length k = l.length
        · exact ⟨[], t, l, rfl, by rw [← hk, hsame], by simpa using hzero⟩
        · rcases ih hsame with ⟨m, u, rest, rfl, hlen, hz⟩
          refine ⟨t :: m, u, rest, rfl, by rw [← hk, hlen], ?_⟩
          rw [closings_cons]
          omega
      have hkept : ∀ k, dominantScan l 0 result k = dominantScan (t :: l) is result priority →
          ∃ m u rest, t :: l = m ++ u :: rest ∧
            dominantScan (t :: l) is result priority = rest.length ∧
              is + closings m + closing u.type = 0 := by
        intro k hk
        rw [← hk] at h ⊢
        rcases ih h with ⟨m, u, rest, rfl, hlen, hz⟩
        refine ⟨t :: m, u, rest, rfl, hlen, ?_⟩
        rw [closings_cons]
        omega
      by_cases hlogic : t.type = .and ∨ t.type = .or
      · refine ⟨[], t, l, rfl, ?_, by simpa using hzero⟩
        rw [dominantScan, if_neg hskip, if_pos hlogic]
      · cases hprio : priorityOf t.type with
        | none =>
          apply hkept priority
          rw [dominantScan, if_neg hskip, if_neg hlogic, hprio, hzero]
        | some k =>
          by_cases hgt : priority > k
          · apply hfound k
            rw [dominantScan, if_neg hskip, if_neg hlogic, hprio, hzero]
            exact (if_pos hgt).symm
          · apply hkept priority
            rw [dominantScan, if_neg hskip, if_neg hlogic, hprio, hzero]
            exact (if_neg hgt).symm

/-- Of the rest of the tokens the loop finds an operator of a unary priority only
if it has found none before. -/
theorem dominantScan_append (m rest : List Token) (h : 4 < priority ∨ rest.length ≤ result) :
    rest.length ≤ dominantScan (m ++ rest) is result priority ∨
      ∃ result' priority', (4 < priority' ∨ rest.length ≤ result') ∧
        dominantScan (m ++ rest) is result priority =
          dominantScan rest (is + closings m) result' priority' := by
  induction m generalizing is result priority with
  | nil => exact .inr ⟨result, priority, h, by simp⟩
  | cons t m ih =>
    have hstep : ∀ result' priority', (4 < priority' ∨ rest.length ≤ result') →
        dominantScan (t :: m ++ rest) is result priority =
          dominantScan (m ++ rest) (is + closing t.type) result' priority' →
        rest.length ≤ dominantScan (t :: m ++ rest) is result priority ∨
          ∃ result' priority', (4 < priority' ∨ rest.length ≤ result') ∧
            dominantScan (t :: m ++ rest) is result priority =
              dominantScan rest (is + closings (t :: m)) result' priority' := by
      intro result' priority' h' heq
      rw [heq, closings_cons, ← add_assoc]
      exact ih h'
    rw [List.cons_append] at hstep ⊢
    by_cases hskip : isOperand t.type = true ∨ is + closing t.type ≠ 0
    · exact hstep _ _ h (dominantScan_skip hskip)
    · by_cases hlogic : t.type = .and ∨ t.type = .or
      · refine .inl ?_
        rw [dominantScan, if_neg hskip, if_pos hlogic, List.length_append]
        omega
      · cases hprio : priorityOf t.type with
        | none =>
          apply hstep _ _ h
          rw [dominantScan, if_neg hskip, if_neg hlogic, hprio]
        | some k =>
          by_cases hgt : priority > k
          · apply hstep (m ++ rest).length k (.inr (by simp))
            rw [dominantScan, if_neg hskip, if_neg hlogic, hprio]
            exact if_pos hgt
          · apply hstep _ _ h
            rw [dominantScan, if_neg hskip, if_neg hlogic, hprio]
            exact if_neg hgt

/-- Of two unary operators at the start, the first one is not found. -/
theorem dominantOperator_ne_zero (ht : isUnary t.type = true) (hu : isUnary u.type = true)
    (hl : closings l = 0) : dominantOperator (t :: u :: l) ≠ 0 := by
  have h100 : 4 < 100 ∨ [u, t].length ≤ 0 := .inl (by decide)
  unfold dominantOperator
  simp only [List.reverse_cons, List.append_assoc, List.singleton_append]
  have hscan : [u, t].length ≤ dominantScan (l.reverse ++ [u, t]) 0 0 100 ∨ _ :=
    dominantScan_append l.reverse [u, t] h100
  rcases hscan with h | ⟨r, p, hp, heq⟩
  · simp only [List.length_cons] at h
    omega
  · rw [heq, closings_reverse, hl, add_zero, dominantScan_operator (isUnary_iff.mp hu)]
    split_ifs with hgt
    · rw [dominantScan_operator (isUnary_iff.mp ht), if_neg (by decide)]
      exact Nat.one_ne_zero
    · rw [dominantScan_operator (isUnary_iff.mp ht), if_neg hgt, dominantScan]
      simp only [List.length_cons] at hp
      omega

/-- Tokens in parentheses. -/
theorem checkParentheses_eq (hlen : 2 ≤ l.length) (h : checkParentheses l = true) :
    ∃ t m u, l = t :: (m ++ [u]) ∧ t.type = .lpar ∧ u.type = .rpar := by
  rcases l with - | ⟨t, l⟩
  · simp at hlen
  · rcases List.eq_nil_or_concat l with rfl | ⟨m, u, rfl⟩
    · simp at hlen
    · simp only [checkParentheses, List.concat_eq_append, Bool.and_eq_true, beq_iff_eq] at h
      refine ⟨t, m, u, by rw [List.concat_eq_append], ?_, ?_⟩
      · simpa using h.1.1
      · simpa [List.getLast?_cons] using h.1.2

/-- **What `eval` returns on**: one token, tokens in parentheses, a unary operator before
tokens, and a binary one between tokens. -/
theorem eval_cases {v : Word} (h : eval env l = some v) :
    (∃ t, l = [t] ∧ evalToken env t = some v) ∨
    (∃ t m u, l = t :: (m ++ [u]) ∧ t.type = .lpar ∧ u.type = .rpar ∧ eval env m = some v) ∨
    (∃ t m w, l = t :: m ∧ dominantOperator l = 0 ∧ eval env m = some w ∧
      evalUnary env (some t.type) w = some v) ∨
    ∃ m t n a b, l = m ++ t :: n ∧ closings n + closing t.type = 0 ∧ eval env m = some a ∧
      eval env n = some b ∧ evalBinary (some t.type) a b = some v := by
  rcases Nat.lt_or_ge l.length 2 with hlen | hlen
  · rcases l with - | ⟨t, - | ⟨u, l⟩⟩
    · simp [eval] at h
    · exact .inl ⟨t, rfl, by simpa [eval] using h⟩
    · simp only [List.length_cons] at hlen
      omega
  refine .inr ?_
  cases hcheck : checkParentheses l with
  | true =>
    rcases checkParentheses_eq hlen hcheck with ⟨t, m, u, rfl, ht, hu⟩
    rw [eval_check hlen hcheck] at h
    simp only [List.drop_succ_cons, List.drop_zero, List.dropLast_concat] at h
    exact .inl ⟨t, m, u, rfl, ht, hu, h⟩
  | false =>
    refine .inr ?_
    by_cases hop : dominantOperator l = 0
    · rw [eval_unary hlen hcheck hop] at h
      rcases Option.bind_eq_some_iff.mp h with ⟨w, hw, hv⟩
      rcases l with - | ⟨t, m⟩
      · simp at hlen
      · exact .inl ⟨t, m, w, rfl, hop, hw, hv⟩
    · rw [eval_binary hlen hcheck hop] at h
      rcases Option.bind_eq_some_iff.mp h with ⟨a, ha, h⟩
      rcases Option.bind_eq_some_iff.mp h with ⟨b, hb, hv⟩
      rcases dominantScan_split l.reverse hop with ⟨m, t, rest, hrev, hlen', hzero⟩
      have hsplit : l = rest.reverse ++ t :: m.reverse := by
        rw [← List.reverse_reverse l, hrev]
        simp
      have hindex : dominantOperator l = rest.reverse.length := by
        rw [List.length_reverse]
        exact hlen'
      rw [hindex, hsplit] at ha hb hv
      have htake : (rest.reverse ++ t :: m.reverse).take rest.reverse.length = rest.reverse := List.take_left
      have hdrop : (rest.reverse ++ t :: m.reverse).drop (rest.reverse.length + 1) = m.reverse := by
        simp [List.drop_append]
      have hget : (rest.reverse ++ t :: m.reverse)[rest.reverse.length]? = some t := by simp
      rw [htake] at ha
      rw [hdrop] at hb
      rw [hget, Option.map_some] at hv
      refine .inr ⟨rest.reverse, t, m.reverse, a, b, hsplit, ?_, ha, hb, hv⟩
      rw [closings_reverse]
      omega

theorem closing_of_isUnary {type : TokenType} (h : isUnary type = true) : closing type = 0 := by
  cases type <;> first | rfl | exact nomatch h

/-- **Where tokens have a value**, every unary operator starts an operand. -/
theorem good_of_eval {v : Word} (h : eval env l = some v) (hl : closings l = 0) : List.IsChain Good l := by
  induction hn : l.length using Nat.strong_induction_on generalizing l v with
  | _ n ih =>
    subst hn
    rcases eval_cases h with ⟨t, rfl, -⟩ | ⟨t, m, u, rfl, ht, hu, hm⟩ | ⟨t, m, w, rfl, hop, hm, hv⟩ |
      ⟨m, t, n, a, b, rfl, hzero, hm, hn, hv⟩
    · exact List.isChain_singleton t
    · have hinner : closings m = 0 := by
        simp only [closings_cons, closings_append, closings_nil, ht, hu, closing] at hl
        omega
      have hshort : m.length < (t :: (m ++ [u])).length := by
        rw [List.length_cons, List.length_append]
        omega
      refine List.isChain_cons.mpr ⟨fun x _ _ => ?_, List.isChain_append.mpr
        ⟨ih m.length hshort hm hinner rfl, List.isChain_singleton u, fun x _ y hy hunary => ?_⟩⟩
      · rw [ht]
        rfl
      · obtain rfl : u = y := by simpa using hy
        rw [hu] at hunary
        exact nomatch hunary
    · -- of two unary operators the first one is not the dominant one
      have ht : isUnary t.type = true := evalUnary_isUnary hv
      have htail : closings m = 0 := by
        rw [closings_cons, closing_of_isUnary ht] at hl
        omega
      refine List.isChain_cons.mpr ⟨fun u hu hunary => absurd hop ?_, ih m.length (by simp) hm htail rfl⟩
      obtain ⟨m', rfl⟩ := List.head?_eq_some_iff.mp hu
      rw [closings_cons, closing_of_isUnary hunary, zero_add] at htail
      exact dominantOperator_ne_zero ht hunary htail
    · rcases evalBinary_binary hv with ⟨hunary, hblocks, hclosing⟩
      simp only [closings_append, closings_cons] at hl
      have hlength : (m ++ t :: n).length = m.length + (n.length + 1) := by
        rw [List.length_append, List.length_cons]
      refine List.isChain_append.mpr ⟨ih m.length (by omega) hm (by omega) rfl, List.isChain_cons.mpr
        ⟨fun _ _ _ => hblocks, ih n.length (by omega) hn (by omega) rfl⟩, fun x _ y hy hy' => ?_⟩
      obtain rfl : t = y := by simpa using hy
      rw [hunary] at hy'
      exact nomatch hy'

end Good

/-! ### The classification -/

section Reclassify

variable {env : Env} {i j : CItem} {l : List CItem} {e : CExpr}

/-- The type that `expr` gives to a token. -/
def classified (check : Option TokenType) (type : TokenType) : TokenType :=
  if endsOperand check then type
  else if type = .mul then .star
  else if type = .sub then .minus
  else type

theorem reclassify_cons (check : Option TokenType) (t : Token) (l : List Token) :
    reclassify check (t :: l) =
      ⟨classified check t.type, t.str⟩ :: reclassify (some (classified check t.type)) l := rfl

/-- The tokens differ in their types only. -/
theorem token_str (i : CItem) : (token i).str = (raw i).str := by
  rcases i with a | u | o | _ | _ <;> first | rfl | (cases u <;> rfl)

/-- What follows is classified right, unless it is a `-` or a `*` after a symbol. -/
theorem classified_of_apart (halt : Alternate i j) (h : Apart i j) :
    classified (some (token i).type) (raw j).type = (token j).type := by
  rcases i with (_ | _ | _ | _) | (_ | _ | _) | (_ | _ | _ | _ | _ | _ | _ | _) | _ | _ <;>
  rcases j with (_ | _ | _ | _) | (_ | _ | _) | (_ | _ | _ | _ | _ | _ | _ | _) | _ | _ <;>
  first | rfl | exact (show False from h).elim | exact nomatch halt

/-- Otherwise a unary operator stands where none may. -/
theorem not_good_of_not_apart (h : ¬ Apart i j) {t u : Token}
    (ht : t.type = (token i).type) (hu : u.type = classified (some (token i).type) (raw j).type) :
    ¬ Good t u := by
  rw [Good, ht, hu]
  rcases i with (_ | _ | _ | _) | (_ | _ | _) | (_ | _ | _ | _ | _ | _ | _ | _) | _ | _ <;>
  rcases j with (_ | _ | _ | _) | (_ | _ | _) | (_ | _ | _ | _ | _ | _ | _ | _) | _ | _ <;>
  first | exact absurd trivial h | exact fun hgood => Bool.noConfusion (hgood rfl)

theorem reclassify_of_spaced (halt : List.IsChain Alternate (i :: l)) (h : List.IsChain Apart (i :: l)) :
    reclassify (some (token i).type) (l.map raw) = l.map token := by
  induction l generalizing i with
  | nil => rfl
  | cons j l ih =>
    rcases List.isChain_cons_cons.mp halt with ⟨hij, hl⟩
    rcases List.isChain_cons_cons.mp h with ⟨hap, hl'⟩
    have htoken : (⟨(token j).type, (raw j).str⟩ : Token) = token j := by rw [← token_str]
    rw [List.map_cons, List.map_cons, reclassify_cons, classified_of_apart hij hap, htoken, ih hl hl']

theorem spaced_of_good {t : Token} (ht : t.type = (token i).type) (halt : List.IsChain Alternate (i :: l))
    (h : List.IsChain Good (t :: reclassify (some (token i).type) (l.map raw))) :
    List.IsChain Apart (i :: l) := by
  induction l generalizing i t with
  | nil => exact List.isChain_singleton i
  | cons j l ih =>
    rcases List.isChain_cons_cons.mp halt with ⟨hij, hl⟩
    rw [List.map_cons, reclassify_cons] at h
    rcases List.isChain_cons_cons.mp h with ⟨hgood, hrest⟩
    have hap : Apart i j := by
      by_contra hnot
      exact not_good_of_not_apart hnot ht rfl hgood
    have htoken : (⟨(token j).type, (raw j).str⟩ : Token) = token j := by rw [← token_str]
    rw [classified_of_apart hij hap, htoken] at hrest
    exact List.isChain_cons_cons.mpr ⟨hap, ih rfl hl hrest⟩

/-- Parentheses match in what was recognised, however it is classified. -/
theorem closings_reclassify (check : Option TokenType) (l : List Token) :
    closings (reclassify check l) = closings l := by
  induction l generalizing check with
  | nil => rfl
  | cons t l ih =>
    rw [reclassify_cons, closings_cons, closings_cons, ih, classified]
    split_ifs with h1 h2 h3
    · rfl
    · rw [h2]
      rfl
    · rw [h3]
      rfl
    · rfl

theorem closings_raw (l : List CItem) : closings (l.map raw) = closings (l.map token) := by
  induction l with
  | nil => rfl
  | cons i l ih =>
    rw [List.map_cons, List.map_cons, closings_cons, closings_cons, ih]
    congr 1
    rcases i with a | u | o | _ | _ <;> first | rfl | (cases u <;> rfl)

theorem closings_tokens (e : CExpr) : closings (tokens e) = 0 := by
  induction e with
  | atom a => simp
  | paren e ih => simp [ih, token, raw, closing]
  | unary u e ih => simp [ih]
  | binary o l r ihl ihr => simp [ihl, ihr]

/-- An expression may follow a parenthesis. -/
theorem alternate_lpar (e : CExpr) : List.IsChain Alternate (.lpar :: items e) := by
  rcases items_head e with ⟨i, t, hitems, hi⟩
  refine List.isChain_cons.mpr ⟨?_, items_alternate e⟩
  simp [hitems, Alternate, hi, Item.ends]

/-- **Where an expression has a value** for the debugger, its operators are spaced,
and they are classified right. -/
theorem spaced_of_evalTokens {v : Word} (h : evalTokens env ((items e).map raw) = some v) : Spaced e := by
  have hbal : closings (reclassify none ((items e).map raw)) = 0 := by
    rw [closings_reclassify, closings_raw]
    exact closings_tokens e
  have hgood := good_of_eval h hbal
  have hhead : List.IsChain Good (token .lpar :: reclassify none ((items e).map raw)) :=
    List.isChain_cons.mpr ⟨fun _ _ _ => rfl, hgood⟩
  rcases items_head e with ⟨i, t, hitems, -⟩
  have halt := alternate_lpar e
  have hsame : reclassify (some (token .lpar).type) ((items e).map raw) =
      reclassify none ((items e).map raw) := by
    rw [hitems]
    rfl
  rw [← hsame] at hhead
  exact (List.isChain_cons.mp (spaced_of_good rfl halt hhead)).2

theorem reclassify_items (h : Spaced e) : reclassify none ((items e).map raw) = tokens e := by
  rcases items_head e with ⟨i, t, hitems, -⟩
  have halt := alternate_lpar e
  have hap : List.IsChain Apart (.lpar :: items e) := List.isChain_cons.mpr ⟨fun _ _ => trivial, h⟩
  have heq := reclassify_of_spaced halt hap
  rw [hitems] at heq
  unfold tokens
  rw [hitems]
  exact heq

end Reclassify

/-! ### The atoms -/

section Atoms

variable {env : Env}

theorem takeWhile_of_forall {p : Char → Bool} {s : List Char} (h : ∀ c ∈ s, p c = true) :
    s.takeWhile p = s :=
  List.takeWhile_eq_self_iff.mpr h

/-- `sscanf` reads a number. -/
theorem sscanf_of_forall {base : ℕ} {p : Char → Bool} {s : List Char} (hne : s ≠ [])
    (h : ∀ c ∈ s, p c = true) : sscanf base p s = fits (numeral base s) := by
  rw [sscanf, takeWhile_of_forall h, if_neg (List.length_pos_iff.mpr hne).ne']

theorem nameFits_nil {s : List Char} : NameFits s [] := by
  intro l y r heq
  exact absurd heq (by simp)

/-- The search goes on after an object with another name. -/
theorem nameFits_cons {s : List Char} {y : Symbol} {symtab : List Symbol} : NameFits s (y :: symtab) ↔
    (y.isObject = true → y.name.length < 32) ∧ (¬ (y.isObject = true ∧ y.name = s) → NameFits s symtab) := by
  constructor
  · intro h
    refine ⟨h [] y symtab rfl fun _ hx => (List.not_mem_nil hx).elim, fun hy l z r heq hl => ?_⟩
    apply h (y :: l) z r (by rw [heq, List.cons_append])
    exact List.forall_mem_cons.mpr ⟨hy, hl⟩
  · rintro ⟨hlen, h⟩ l z r heq hl
    rcases l with - | ⟨x, l⟩
    · obtain ⟨rfl, rfl⟩ := List.cons.inj heq
      exact hlen
    · obtain ⟨rfl, rfl⟩ := List.cons.inj heq
      rw [List.forall_mem_cons] at hl
      exact h hl.1 l z r rfl hl.2

/-- The loop finds the first object with the name, if no name overflows. -/
theorem symbol_eq_some {s : List Char} {symtab : List Symbol} {v : Word} :
    symbol s symtab = some v ↔ NameFits s symtab ∧ objectNamed s symtab = some v := by
  induction symtab with
  | nil => exact iff_of_false (fun h => nomatch h) (fun h => nomatch h.2)
  | cons y symtab ih =>
    rw [symbol, nameFits_cons]
    by_cases hobj : y.isObject = true
    · rw [if_pos hobj]
      by_cases hlong : y.name.length ≥ 32
      · simp [hobj, hlong]
      have hshort : y.name.length < 32 := Nat.lt_of_not_ge hlong
      by_cases hname : y.name = s
      · subst hname
        have hfound : objectNamed y.name (y :: symtab) = some y.value := by simp [objectNamed, hobj]
        simp [hobj, hfound, hshort]
      · have hskip : objectNamed s (y :: symtab) = objectNamed s symtab := by simp [objectNamed, hname]
        rw [if_neg hlong, if_neg hname, ih, hskip]
        simp [hname, hshort]
    · have hskip : objectNamed s (y :: symtab) = objectNamed s symtab := by simp [objectNamed, hobj]
      rw [if_neg hobj, ih, hskip]
      simp [hobj]

/-- The loops find the register with the name, but for three of them. -/
theorem register_eq_some {c : CpuState} {s : List Char} {v : Word} :
    register c s = some v ↔ ¬ IsHighByte s ∧ registerNamed c s = some v := by
  have hnamed : registerNamed c s =
      (register c s).or (((highBytes c).find? fun r => r.1.toList == s).map (·.2)) := by
    rw [registerNamed, register, List.find?_append, Option.map_or]
  by_cases hs : IsHighByte s
  · refine iff_of_false (fun h => ?_) fun h => h.1 hs
    have hnone : register c s = none := by
      rcases List.mem_cons.mp hs with rfl | hs
      · simp [register, registers]
      rcases List.mem_cons.mp hs with rfl | hs
      · simp [register, registers]
      obtain rfl := List.mem_singleton.mp hs
      simp [register, registers]
    rw [hnone] at h
    exact nomatch h
  · have hnone : (highBytes c).find? (fun r => r.1.toList == s) = none := by
      refine List.find?_eq_none.mpr fun r hr heq => hs ?_
      have hname : r.1.toList = s := by simpa using heq
      rw [← hname]
      rcases List.mem_cons.mp hr with rfl | hr
      · exact List.mem_cons_self
      rcases List.mem_cons.mp hr with rfl | hr
      · exact List.mem_cons_of_mem _ List.mem_cons_self
      obtain rfl := List.mem_singleton.mp hr
      exact List.mem_cons_of_mem _ (List.mem_cons_of_mem _ List.mem_cons_self)
    rw [hnamed, hnone, Option.map_none, Option.or_none]
    exact ⟨fun h => ⟨hs, h⟩, fun h => h.2⟩

/-- Every object is copied in time, and every register is looked for. -/
def Atom.Found (env : Env) : Atom → Prop
  | sym s => NameFits s env.symtab
  | reg s => ¬ IsHighByte s
  | _ => True

/-- One atom. -/
theorem evalToken_eq_some {a : Atom} (hw : a.Wf) {v : Word} :
    evalToken env a.token = some v ↔ a.Found env ∧ a.value env = some v := by
  cases a with
  | dec s =>
    have heq : evalToken env (Atom.dec s).token = fits (numeral 10 s) := sscanf_of_forall hw.1 hw.2
    rw [heq]
    exact ⟨fun h => ⟨trivial, h⟩, fun h => h.2⟩
  | hex s =>
    have heq : evalToken env (Atom.hex s).token = fits (numeral 16 s) := sscanf_of_forall hw.1 hw.2
    rw [heq]
    exact ⟨fun h => ⟨trivial, h⟩, fun h => h.2⟩
  | reg s => exact register_eq_some
  | sym s => exact symbol_eq_some

end Atoms

/-! ### The value of an expression -/

section Strict

variable {env : Env} {f g : Atom → Option Word} {e : CExpr} {v : Word}

/-- Every atom has a value where the whole has one. -/
theorem strictWith_eq_some : ∀ {e : CExpr} {v : Word},
    (∀ a, .atom a ∈ items e → ∀ w, f a = some w → g a = some w) →
    strictWith env f e = some v → strictWith env g e = some v
  | .atom a, v, hfg, h => hfg a (List.mem_singleton_self _) v h
  | .paren e, v, hfg, h => strictWith_eq_some (e := e) (fun a ha => hfg a (by simp [items, ha])) h
  | .unary u e, v, hfg, h => by
    rcases Option.bind_eq_some_iff.mp h with ⟨w, hw, hv⟩
    have hw' := strictWith_eq_some (e := e) (fun a ha => hfg a (by simp [items, ha])) hw
    exact Option.bind_eq_some_iff.mpr ⟨w, hw', hv⟩
  | .binary o l r, v, hfg, h => by
    rcases Option.bind_eq_some_iff.mp h with ⟨a, ha, h⟩
    rcases Option.bind_eq_some_iff.mp h with ⟨b, hb, hv⟩
    have ha' := strictWith_eq_some (e := l) (fun a ha => hfg a (by simp [items, ha])) ha
    have hb' := strictWith_eq_some (e := r) (fun a ha => hfg a (by simp [items, ha])) hb
    exact Option.bind_eq_some_iff.mpr ⟨a, ha', Option.bind_eq_some_iff.mpr ⟨b, hb', hv⟩⟩

theorem atom_of_strictWith : ∀ {e : CExpr} {v : Word}, strictWith env f e = some v →
    ∀ a, .atom a ∈ items e → ∃ w, f a = some w
  | .atom a, v, h, b, hb => by
    obtain rfl : b = a := by simpa [items] using hb
    exact ⟨v, h⟩
  | .paren e, v, h, b, hb => atom_of_strictWith (e := e) h b (by simpa [items] using hb)
  | .unary u e, v, h, b, hb => by
    rcases Option.bind_eq_some_iff.mp h with ⟨w, hw, -⟩
    exact atom_of_strictWith (e := e) hw b (by simpa [items] using hb)
  | .binary o l r, v, h, b, hb => by
    rcases Option.bind_eq_some_iff.mp h with ⟨x, hx, h⟩
    rcases Option.bind_eq_some_iff.mp h with ⟨y, hy, -⟩
    have hmem : .atom b ∈ items l ∨ .atom b ∈ items r := by simpa [items] using hb
    rcases hmem with hb | hb
    · exact atom_of_strictWith (e := l) hx b hb
    · exact atom_of_strictWith (e := r) hy b hb

/-- Where all operands have a value, `&&` and `||` need not look at both. -/
theorem value_of_strict : ∀ {e : CExpr} {v : Word}, strict env e = some v → value env e = some v
  | .atom a, v, h => h
  | .paren e, v, h => value_of_strict (e := e) h
  | .unary u e, v, h => by
    rcases Option.bind_eq_some_iff.mp h with ⟨w, hw, hv⟩
    exact Option.bind_eq_some_iff.mpr ⟨w, value_of_strict hw, hv⟩
  | .binary o l r, v, h => by
    rcases Option.bind_eq_some_iff.mp h with ⟨a, ha, h⟩
    rcases Option.bind_eq_some_iff.mp h with ⟨b, hb, hv⟩
    have hl := value_of_strict ha
    have hr := value_of_strict hb
    cases o with
    | and =>
      rw [← hv]
      by_cases h0 : a = 0#32 <;> simp [value, hl, hr, h0, Binary.apply, boolWord]
    | or =>
      rw [← hv]
      by_cases h0 : a = 0#32 <;> simp [value, hl, hr, h0, Binary.apply, boolWord]
    | _ =>
      rw [← hv]
      simp [value, hl, hr]

/-- If the operators are spaced, all operands are evaluated, under the priorities of
`dominant_operator`. -/
theorem evalTokens_of_spaced (he : Proper prec e) (hs : Spaced e) : evalTokens env ((items e).map raw) =
    strictWith env (fun a => evalToken env a.token) (regroup flat e) := by
  have hmono : ∀ a b, prec a ≤ prec b → flat a ≤ flat b := by
    intro a b
    cases a <;> cases b <;> decide
  have hitems : items (regroup flat e) = items e := items_regroup
  have hs' : Spaced (regroup flat e) := by
    rw [Spaced, hitems]
    exact hs
  rw [evalTokens, reclassify_items hs, ← eval_tokens (proper_regroup hmono he) hs'.single, tokens, tokens, hitems]

/-- **What the debugger computes**: the value under its priorities, with all operands
evaluated, if the operators are spaced, the names fit and the registers are looked for. -/
theorem evalTokens_eq_some (he : Proper prec e) (hw : Numbers e) :
    evalTokens env ((items e).map raw) = some v ↔
      Spaced e ∧ NamesFit env e ∧ RegsFound e ∧ strict env (regroup flat e) = some v := by
  have hitems : items (regroup flat e) = items e := items_regroup
  constructor
  · intro h
    have hs := spaced_of_evalTokens h
    rw [evalTokens_of_spaced he hs] at h
    have hfound : ∀ a, .atom a ∈ items e → a.Found env := by
      intro a ha
      have ha' := ha
      rw [← hitems] at ha'
      rcases atom_of_strictWith h a ha' with ⟨w, hval⟩
      exact ((evalToken_eq_some (hw a ha)).mp hval).1
    refine ⟨hs, fun s => hfound (.sym s), fun s => hfound (.reg s), strictWith_eq_some (fun a ha w hfa => ?_) h⟩
    rw [hitems] at ha
    exact ((evalToken_eq_some (hw a ha)).mp hfa).2
  · rintro ⟨hs, hnames, hregs, h⟩
    rw [evalTokens_of_spaced he hs]
    refine strictWith_eq_some (fun a ha w hva => ?_) h
    rw [hitems] at ha
    refine (evalToken_eq_some (hw a ha)).mpr ⟨?_, hva⟩
    cases a with
    | sym s => exact hnames s ha
    | reg s => exact hregs s ha
    | _ => trivial

end Strict

/-- Nothing is known. -/
def noEnv : Env where
  cpu := ⟨fun _ => 0, 0, 0, ⟨0, 0⟩, ⟨0, 0⟩, fun _ => ⟨0, ⟨0, 0, 0, 0, 0⟩⟩, 0, 0⟩
  symtab := []
  read _ := none

/-- The kinds of expressions without a difference: without `&&` to the right of an
`||`, and with a value for every operand. -/
theorem evalTokens_of_flat {env : Env} {e : CExpr} {v : Word} (he : Proper prec e) (hflat : Proper flat e)
    (hw : Numbers e) (hs : Spaced e) (hnames : NamesFit env e) (hregs : RegsFound e)
    (hv : strict env e = some v) :
    evalTokens env ((items e).map raw) = some v ∧ value env e = some v := by
  refine ⟨(evalTokens_eq_some he hw).mpr ⟨hs, hnames, hregs, ?_⟩, value_of_strict hv⟩
  rw [regroup_of_proper hflat]
  exact hv

end Debug

end Nemu
