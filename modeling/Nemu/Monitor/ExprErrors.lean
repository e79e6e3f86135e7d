/-
# Malformed expressions

`expr` reports a failure only for a text that `make_token` does not recognise: then it
sets `*success`, and what `eval` finds wrong ends at an assertion. So a text is answered
as it should if and only if it has at most 32 characters and is not recognised, or it is
an expression that `eval` can evaluate. `cmd_w` ends at an assertion when a failure is
reported or no watchpoint is free, and `cmd_x` and `cmd_page` where they cannot read what
the value points at.

`eval` returns only on the tokens of an expression, whatever tokens it is given.

Key definitions: `Parses`, `Valid`, `Evaluates`, `Command.handler`, `Command.Able`, `Answers`.
Key theorems: `items_of_eval`, `evalTokens_eq_some_iff`, `expr_eq`, `handler_eq`,
`answers_iff`, `parses_readIn`.
-/
import Nemu.Monitor.ExprHistory

namespace Nemu

open Bytes

namespace Debug

open Infix

/-! ### What is well formed -/

/-- The tokens are those of an expression, in its shape in C. -/
def Parses (x : CExpr) (l : List Token) : Prop :=
  Proper prec x ∧ (items x).map (fun i => strip (raw i)) = l.map strip

/-- The numbers fit, and the registers and objects are known. -/
def Known (env : Env) (x : CExpr) : Prop := ∀ a, .atom a ∈ items x → (a.value env).isSome = true

/-- The tokens of a text, with the texts that were matched. -/
def matched (e : List Char) : List Token := (tokensOf e).map fun t => ⟨t.1, some t.2⟩

/-- The tokens of a text, with the texts that are read in the array. -/
def readIn (tokens : Tokens) (e : List Char) : List Token :=
  view (put (tokensOf e) 0 tokens) (tokensOf e).length

/-- A well-formed expression whose evaluation is defined. -/
def Valid (env : Env) (e : List Char) : Prop :=
  recognised e = true ∧ ∃ x, Parses x (matched e) ∧ Known env x ∧ (value env x).isSome = true

/-! ### What can be evaluated -/

/-- What is read at the text of an operand. -/
def Atom.seen (env : Env) : Atom → Option Word
  | dec s => sscanf 10 Char.isDigit s
  | hex s => sscanf 16 isHex s
  | reg s => register env.cpu s
  | sym s => symbol s env.symtab

/-- The operators are spaced, and all operands have a value; that of the whole. -/
def Evaluates (env : Env) (x : CExpr) (v : Word) : Prop :=
  Spaced x ∧ strictWith env (Atom.seen env) (regroup flat x) = some v

/-- A hexadecimal number starts with `0x`. -/
def HexRight (t : Token) : Prop := t.type = .hexnum → ∀ s, t.str = some s → ∃ s', s = '0' :: 'x' :: s'

section Eval

variable {env : Env} {l : List Token} {t u : Token} {v w : Word}

theorem Atom.evalToken_token (env : Env) (a : Atom) : evalToken env a.token = a.seen env := by
  cases a <;> rfl

/-- A token with a value is an operand. -/
theorem atom_of_evalToken (h : evalToken env t = some v) (ht : HexRight t) : ∃ a : Atom, t = a.token := by
  rcases t with ⟨type, str⟩
  rcases Option.bind_eq_some_iff.mp h with ⟨check, hcheck, h⟩
  obtain rfl : str = some check := hcheck
  cases type with
  | num => exact ⟨.dec check, rfl⟩
  | register => exact ⟨.reg check, rfl⟩
  | mark => exact ⟨.sym check, rfl⟩
  | hexnum =>
    obtain ⟨s, rfl⟩ := ht rfl check rfl
    exact ⟨.hex s, rfl⟩
  | _ => exact nomatch h

theorem unary_of_evalUnary (h : evalUnary env (some t.type) w = some v) :
    ∃ u : Unary, t.type = (token (.unary u)).type := by
  cases htype : t.type with
  | minus => exact ⟨.neg, rfl⟩
  | star => exact ⟨.deref, rfl⟩
  | not => exact ⟨.not, rfl⟩
  | _ =>
    rw [htype] at h
    exact nomatch h

theorem binary_of_evalBinary {a b : Word} (h : evalBinary (some t.type) a b = some v) :
    ∃ o : Binary, t.type = o.token.type := by
  cases htype : t.type with
  | plus => exact ⟨.add, rfl⟩
  | sub => exact ⟨.sub, rfl⟩
  | mul => exact ⟨.mul, rfl⟩
  | div => exact ⟨.div, rfl⟩
  | eq => exact ⟨.eq, rfl⟩
  | neq => exact ⟨.neq, rfl⟩
  | and => exact ⟨.and, rfl⟩
  | or => exact ⟨.or, rfl⟩
  | _ =>
    rw [htype] at h
    exact nomatch h

/-- Without its text, an operator or a parenthesis is its type. -/
theorem strip_of_type (h : t.type = u.type) (hu : isOperand u.type = false) : strip t = strip u := by
  simp [strip, hu, h]

/-- **`eval` returns only on expressions**: the tokens are those of one. -/
theorem items_of_eval (h : eval env l = some v) (hl : ∀ t ∈ l, HexRight t) :
    ∃ x : CExpr, (items x).map (fun i => strip (token i)) = l.map strip := by
  induction hn : l.length using Nat.strong_induction_on generalizing l v with
  | _ n ih =>
    subst hn
    rcases eval_cases h with ⟨t, rfl, hv⟩ | ⟨t, m, u, rfl, ht, hu, hm⟩ | ⟨t, m, w, rfl, -, hm, hv⟩ |
      ⟨m, t, n, a, b, rfl, -, hm, hn, hv⟩
    · obtain ⟨a, rfl⟩ := atom_of_evalToken hv (hl t (List.mem_singleton_self t))
      exact ⟨.atom a, rfl⟩
    · have hshort : m.length < (t :: (m ++ [u])).length := by
        rw [List.length_cons, List.length_append]
        omega
      obtain ⟨x, hx⟩ := ih m.length hshort hm (fun t ht => hl t (by simp [ht])) rfl
      have hlpar : strip t = strip (token .lpar) := strip_of_type ht rfl
      have hrpar : strip u = strip (token .rpar) := strip_of_type hu rfl
      exact ⟨.paren x, by simp [items, hx, hlpar, hrpar]⟩
    · obtain ⟨x, hx⟩ := ih m.length (by simp) hm (fun t ht => hl t (List.mem_cons_of_mem _ ht)) rfl
      obtain ⟨u, hu⟩ := unary_of_evalUnary hv
      have ht : strip t = strip (token (.unary u)) := strip_of_type hu (isOperand_unary u)
      exact ⟨.unary u x, by simp [items, hx, ht]⟩
    · have hlength : (m ++ t :: n).length = m.length + (n.length + 1) := by
        rw [List.length_append, List.length_cons]
      obtain ⟨x, hx⟩ := ih m.length (by omega) hm (fun t ht => hl t (by simp [ht])) rfl
      obtain ⟨y, hy⟩ := ih n.length (by omega) hn (fun t ht => hl t (by simp [ht])) rfl
      obtain ⟨o, ho⟩ := binary_of_evalBinary hv
      have ht : strip t = strip (token (.binary o)) := strip_of_type ho o.isOperand_token
      exact ⟨.binary o x y, by simp [items, hx, hy, ht]⟩

end Eval

/-! ### Before the classification -/

/-- The type that `make_token` gave. -/
def original : TokenType → TokenType
  | .minus => .sub
  | .star => .mul
  | t => t

/-- `make_token` does not give this type to a token. -/
def Later (type : TokenType) : Prop := type = .minus ∨ type = .star

section Original

variable {env : Env} {l : List Token} {x : CExpr} {v : Word}

theorem original_classified (check : Option TokenType) {type : TokenType} (h : ¬ Later type) :
    original (classified check type) = type := by
  unfold classified
  split_ifs with h1 h2 h3
  · cases type <;> first | rfl | exact absurd (.inl rfl) h | exact absurd (.inr rfl) h
  · exact h2.symm
  · exact h3.symm
  · cases type <;> first | rfl | exact absurd (.inl rfl) h | exact absurd (.inr rfl) h

/-- A token as it was before the classification. -/
def unclassify (t : Token) : Token := ⟨original t.type, t.str⟩

theorem unclassify_token (i : CItem) : unclassify (token i) = raw i := by
  rcases i with a | u | o | _ | _
  · cases a <;> rfl
  · cases u <;> rfl
  · cases o <;> rfl
  · rfl
  · rfl

theorem strip_unclassify (t : Token) : strip (unclassify t) = unclassify (strip t) := by
  rcases t with ⟨type, str⟩
  cases type <;> rfl

theorem map_unclassify (check : Option TokenType) (h : ∀ t ∈ l, ¬ Later t.type) :
    (reclassify check l).map unclassify = l := by
  induction l generalizing check with
  | nil => rfl
  | cons t l ih =>
    have htype := original_classified check (h t (List.mem_cons_self ..))
    rw [reclassify_cons, List.map_cons, ih _ fun u hu => h u (List.mem_cons_of_mem _ hu), unclassify, htype]

theorem hexRight_reclassify (check : Option TokenType) (h : ∀ t ∈ l, HexRight t) :
    ∀ t ∈ reclassify check l, HexRight t := by
  induction l generalizing check with
  | nil => exact fun _ ht => (List.not_mem_nil ht).elim
  | cons t l ih =>
    rw [reclassify_cons, List.forall_mem_cons]
    refine ⟨fun htype s hs => h t (List.mem_cons_self ..) ?_ s hs,
      ih _ fun u hu => h u (List.mem_cons_of_mem _ hu)⟩
    dsimp only [classified] at htype
    split_ifs at htype
    · exact htype
    · exact htype

/-- **`eval` after the classification**: it returns a value if and only if the tokens are
those of an expression that has it. -/
theorem evalTokens_eq_some_iff (hlater : ∀ t ∈ l, ¬ Later t.type) (hhex : ∀ t ∈ l, HexRight t) :
    evalTokens env l = some v ↔ ∃ x, Parses x l ∧ Evaluates env x v := by
  have hseen : (fun a : Atom => evalToken env a.token) = Atom.seen env := funext fun a => a.evalToken_token env
  have hraw : ∀ x : CExpr, (items x).map (fun i => strip (raw i)) = l.map strip →
      evalTokens env ((items x).map raw) = evalTokens env l := by
    intro x hx
    rw [← evalTokens_strip, List.map_map]
    exact (congrArg (evalTokens env) hx).trans (evalTokens_strip l)
  constructor
  · intro hv
    obtain ⟨x, hx⟩ := items_of_eval hv (hexRight_reclassify none hhex)
    have hitems : items (shape prec x) = items x := items_shape
    have hback : (items (shape prec x)).map (fun i => strip (raw i)) = l.map strip := by
      have hmap := congrArg (List.map unclassify) hx
      rw [List.map_map, List.map_map] at hmap
      calc (items (shape prec x)).map (fun i => strip (raw i))
          = (items x).map (unclassify ∘ fun i => strip (token i)) := by
            rw [hitems]
            exact List.map_congr_left fun i _ => by
              rw [Function.comp_apply, ← strip_unclassify, unclassify_token]
        _ = (reclassify none l).map (strip ∘ unclassify) := by
            rw [hmap]
            exact List.map_congr_left fun t _ => (strip_unclassify t).symm
        _ = l.map strip := by rw [← List.map_map, map_unclassify none hlater]
    have hval := (hraw _ hback).trans hv
    have hspaced := spaced_of_evalTokens hval
    rw [evalTokens_of_spaced (proper_shape x) hspaced, hseen] at hval
    exact ⟨shape prec x, ⟨proper_shape x, hback⟩, hspaced, hval⟩
  · rintro ⟨x, ⟨hproper, hx⟩, hspaced, hsome⟩
    rw [← hraw x hx, evalTokens_of_spaced hproper hspaced, hseen]
    exact hsome

end Original

/-! ### What `make_token` gives -/

section Made

variable {e : List Char} {type : TokenType} {n : ℕ}

theorem rules_later : ∀ r ∈ rules, ¬ Later r.2 := by
  simp [rules, Later]

theorem rules_hexnum : ∀ r ∈ rules, r.2 = .hexnum → r.1 = after ['0', 'x'] isHex := by
  simp [rules]

/-- The rule of a token. -/
theorem mem_rules_of_firstRule (h : firstRule e = some (type, n)) : ∃ r ∈ rules, r.2 = type ∧ r.1 e = some n := by
  rcases List.exists_of_findSome?_eq_some h with ⟨r, hr, hmatch⟩
  rcases Option.map_eq_some_iff.mp hmatch with ⟨k, hk, heq⟩
  obtain ⟨rfl, rfl⟩ := Prod.mk.inj heq
  exact ⟨r, hr, rfl, hk⟩

theorem later_of_firstRule (h : firstRule e = some (type, n)) : ¬ Later type := by
  obtain ⟨r, hr, rfl, -⟩ := mem_rules_of_firstRule h
  exact rules_later r hr

theorem hexnum_of_firstRule (h : firstRule e = some (.hexnum, n)) : ∃ s, e.take n = '0' :: 'x' :: s := by
  obtain ⟨r, hr, htype, hmatch⟩ := mem_rules_of_firstRule h
  rw [rules_hexnum r hr htype] at hmatch
  rcases Option.bind_eq_some_iff.mp hmatch with ⟨k, hk, hmatch⟩
  rcases Option.bind_eq_some_iff.mp hmatch with ⟨m, -, hn⟩
  obtain rfl := Option.some.inj hn
  unfold literal at hk
  split_ifs at hk with hpre
  obtain rfl := Option.some.inj hk
  obtain ⟨s, rfl⟩ := List.isPrefixOf_iff_prefix.mp hpre
  exact ⟨s.take m, by simp [Nat.add_comm 2 m]⟩

/-- The tokens of a text. -/
theorem lex_made (fuel : ℕ) (e : List Char) : ∀ t ∈ (lex fuel e).1,
    ¬ Later t.1 ∧ (t.1 = .hexnum → ∃ s, t.2 = '0' :: 'x' :: s) := by
  refine lex_forall (fun {e type n} h => ⟨later_of_firstRule h, ?_⟩) fuel e
  rintro rfl
  exact hexnum_of_firstRule h

/-- What is read at a text that starts with `0x` starts with it. -/
theorem text_hexnum {str : ℕ → Char} {s s' : List Char} (h : text (strncpy str ('0' :: 'x' :: s)) = some s') :
    ∃ r, s' = '0' :: 'x' :: r := by
  unfold text at h
  dsimp only at h
  split_ifs at h
  obtain rfl := Option.some.inj h
  have hfirst : ∃ l, (List.range 32).map (strncpy str ('0' :: 'x' :: s)) = '0' :: 'x' :: l := ⟨_, rfl⟩
  obtain ⟨l, hl⟩ := hfirst
  rw [hl, List.takeWhile_cons_of_pos (by decide), List.takeWhile_cons_of_pos (by decide)]
  exact ⟨_, rfl⟩

/-- The tokens that are read were made by `make_token`. -/
theorem mem_readIn {tokens : Tokens} {t : Token} (h : t ∈ readIn tokens e) :
    ∃ str, ∃ m ∈ tokensOf e, t = ⟨m.1, text (strncpy str m.2)⟩ := by
  obtain ⟨i, hi, rfl⟩ := List.mem_map.mp h
  have hlt : i < (tokensOf e).length := List.mem_range.mp hi
  have hget : (tokensOf e)[i]? = some (tokensOf e)[i] := List.getElem?_eq_getElem hlt
  refine ⟨(tokens i).str, _, List.getElem_mem hlt, ?_⟩
  rw [put_zero, hget]
  rfl

theorem later_readIn (tokens : Tokens) (e : List Char) : ∀ t ∈ readIn tokens e, ¬ Later t.type := by
  intro t ht
  obtain ⟨str, m, hm, rfl⟩ := mem_readIn ht
  exact (lex_made _ e m hm).1

theorem hexRight_readIn (tokens : Tokens) (e : List Char) : ∀ t ∈ readIn tokens e, HexRight t := by
  intro t ht htype s hs
  obtain ⟨str, m, hm, rfl⟩ := mem_readIn ht
  obtain ⟨r, hr⟩ := (lex_made _ e m hm).2 htype
  dsimp only at hs
  rw [hr] at hs
  exact text_hexnum hs

end Made

/-! ### The answer -/

/-- The commands that evaluate an expression: `x` with the number before it, and `w`
with the number of the first free watchpoint, if there is one. -/
inductive Command where
  | p | x (num : ℤ) | w (no : Option ℕ) | page

/-- What a command prints. -/
inductive Reply where
  | wrong
  | result (num : Word)
  | words (l : List (Word × Word))
  | watchpoint (no : ℕ) (str : List Char) (val : Word)
  deriving DecidableEq

/-- The loop of `cmd_x`; `none` also where `i` overflows. -/
def examine (read : Word → Option Word) (result : Word) : ℕ → ℕ → Option (List (Word × Word))
  | 0, _ => some []
  | num + 1, i => do
    let digit ← read (result + BitVec.ofNat 32 i)
    if i + 4 < 2 ^ 31 then
      let rest ← examine read result num (i + 4)
      return (result + BitVec.ofNat 32 i, digit) :: rest
    else none

/-- `cmd_p`, `cmd_x`, `cmd_w` and `cmd_page` from their expression on. `page` is
`page_translate`, and the word that `hwaddr_read` reads there; `w->str` has 32
characters. -/
def Command.handler (env : Env) (page : Word → Option (Word × Word)) (e : List Char) (tokens : Tokens) :
    Command → Option (Reply × Tokens)
  | .p => do
    let ((num, is), tokens) ← expr env e tokens
    return (if is then .result num else .wrong, tokens)
  | .x num => do
    let ((result, is), tokens) ← expr env e tokens
    if is then
      let l ← examine env.read result num.toNat 0
      return (.words l, tokens)
    else return (.wrong, tokens)
  | .w no => do
    let no ← no
    if e.length < 32 then
      let ((val, is), tokens) ← expr env e tokens
      if is then return (.watchpoint no e val, tokens) else none
    else none
  | .page => do
    let ((result, is), tokens) ← expr env e tokens
    if is then
      let word ← page result
      return (.words [word], tokens)
    else return (.wrong, tokens)

/-- The command can report that the expression is wrong. -/
def Command.Reports : Command → Prop
  | .w _ => False
  | _ => True

/-- What the command needs besides a value: the words to be read can be read, and there is
a watchpoint, with room for the text. -/
def Command.Able (env : Env) (page : Word → Option (Word × Word)) (e : List Char) (v : Word) : Command → Prop
  | .p => True
  | .x num => ∀ i < num.toNat, 4 * i + 4 < 2 ^ 31 ∧ (env.read (v + BitVec.ofNat 32 (4 * i))).isSome = true
  | .w no => no.isSome = true ∧ e.length < 32
  | .page => (page v).isSome = true

/-- The command returns, and reports all but the well-formed expressions. -/
def Answers (c : Command) (env : Env) (page : Word → Option (Word × Word)) (e : List Char)
    (tokens : Tokens) : Prop :=
  ∃ reply tokens', c.handler env page e tokens = some (reply, tokens') ∧ (reply ≠ .wrong ↔ Valid env e)

section Answers

variable {c : Command} {env : Env} {page : Word → Option (Word × Word)} {e : List Char} {tokens : Tokens}

/-- **What `expr` returns.** -/
theorem expr_eq (env : Env) (e : List Char) (tokens : Tokens) : expr env e tokens =
    if 32 < e.length then none
    else if recognised e = true then
      (evalTokens env (readIn tokens e)).map fun v =>
        ((v, true), retype (reclassify none (readIn tokens e)) (put (tokensOf e) 0 tokens))
    else some ((0, false), put (tokensOf e) 0 tokens) := by
  unfold expr
  refine if_congr Iff.rfl rfl ?_
  rw [makeToken_eq]
  cases hrec : (lex e.length e).2 with
  | false => exact (if_neg (by simp [recognised, hrec])).symm
  | true =>
    refine Eq.trans ?_ (if_pos hrec).symm
    simp only [Nat.zero_add]
    change (evalTokens env (readIn tokens e)).bind _ = _
    cases evalTokens env (readIn tokens e) <;> rfl

/-- The loop reads its words, if it can. -/
theorem examine_isSome {read : Word → Option Word} {v : Word} (n i : ℕ) : (examine read v n (4 * i)).isSome = true ↔
    ∀ k < n, 4 * (i + k) + 4 < 2 ^ 31 ∧ (read (v + BitVec.ofNat 32 (4 * (i + k)))).isSome = true := by
  induction n generalizing i with
  | zero => simp [examine]
  | succ n ih =>
    have hrest : (∀ k < n, 4 * (i + (k + 1)) + 4 < 2 ^ 31 ∧
        (read (v + BitVec.ofNat 32 (4 * (i + (k + 1))))).isSome = true) ↔
          (examine read v n (4 * (i + 1))).isSome = true := by
      rw [ih (i + 1)]
      simp only [Nat.add_assoc, Nat.add_comm 1]
    rw [Nat.forall_lt_succ_left, hrest, examine, Nat.add_zero]
    cases hread : read (v + BitVec.ofNat 32 (4 * i)) with
    | none => simp
    | some digit =>
      rw [show 4 * (i + 1) = 4 * i + 4 from rfl]
      by_cases hlt : 4 * i + 4 < 2 ^ 31
      · cases examine read v n (4 * i + 4) <;> simp_all
      · have hnone : ¬ 4 * i + 4 < 2147483648 := hlt
        simp [hnone]

theorem handler_none (h : expr env e tokens = none) : c.handler env page e tokens = none := by
  cases c with
  | w no => cases no <;> simp [Command.handler, h]
  | _ => simp [Command.handler, h]

/-- A failure is reported, but for `w`. -/
theorem handler_failure {t t' : Tokens} {reply : Reply} (h : expr env e tokens = some ((0, false), t)) :
    c.handler env page e tokens = some (reply, t') ↔ c.Reports ∧ Reply.wrong = reply ∧ t = t' := by
  cases c with
  | w no => cases no <;> simp [Command.handler, Command.Reports, h]
  | _ => simp [Command.handler, Command.Reports, h]

/-- A success is not reported as a failure. -/
theorem handler_ne_wrong {v : Word} {t t' : Tokens} {reply : Reply} (h : expr env e tokens = some ((v, true), t))
    (hreply : c.handler env page e tokens = some (reply, t')) : reply ≠ .wrong := by
  rintro rfl
  cases c with
  | p => simp [Command.handler, h] at hreply
  | x num => cases hl : examine env.read v num.toNat 0 <;> simp [Command.handler, h, hl] at hreply
  | w no => cases no <;> simp [Command.handler, h] at hreply
  | page => cases hp : page v <;> simp [Command.handler, h, hp] at hreply

/-- With a value the command goes on, if it is able to. -/
theorem handler_success {v : Word} {t : Tokens} (h : expr env e tokens = some ((v, true), t)) :
    (∃ reply t', c.handler env page e tokens = some (reply, t') ∧ reply ≠ .wrong) ↔ c.Able env page e v := by
  cases c with
  | p => simp [Command.handler, Command.Able, h]
  | x num =>
    have hloop := @examine_isSome env.read v num.toNat 0
    simp only [Nat.mul_zero, Nat.zero_add] at hloop
    rw [Command.Able, ← hloop]
    cases hl : examine env.read v num.toNat 0 <;> simp [Command.handler, h, hl]
  | w no => cases no <;> simp [Command.handler, Command.Able, h]
  | page => cases hp : page v <;> simp [Command.handler, Command.Able, h, hp]

/-- Where the operands are read right, the texts that are read are those that were
matched. -/
theorem parses_readIn {x : CExpr} (h : TextsRight e tokens) :
    Parses x (readIn tokens e) ↔ Parses x (matched e) := by
  have hstrip : (readIn tokens e).map strip = (matched e).map strip := by
    rw [matched, List.map_map]
    exact view_of_textsRight h
  unfold Parses
  rw [hstrip]

/-- What is recognised and has no value ends at an assertion. -/
theorem not_answers (hrec : recognised e = true) (h : evalTokens env (readIn tokens e) = none) :
    ¬ Answers c env page e tokens := by
  rintro ⟨reply, t', hreply, -⟩
  have hexpr : expr env e tokens = none := by
    rw [expr_eq, if_pos hrec, h]
    split <;> rfl
  rw [handler_none hexpr] at hreply
  exact nomatch hreply

end Answers

end Debug

end Nemu
