/-
# The buffers of an expression

`expr.c` again, with what `make_token` and `eval` write to `tokens` and to `tmp` and the
texts that `eval` reads, in order and up to a failed assertion. What `make_token` writes
is always inside: an expression has at most 32 characters. But a number of 32 characters
leaves no room for the null character that `sscanf` reads up to, and `eval` copies the
name of an object to the 32 characters of `tmp`, however long it is.

Key definitions: `Access`, `Access.Inside`, `Buffers.makeToken`, `Buffers.eval`,
`Buffers.expr`, `Reaches`.
Key theorems: `result_expr`, `all_makeToken`, `all_eval`, `expr_inside_iff`.
-/
import Nemu.Lib.Traced
import Nemu.Monitor.ExprErrors

namespace Nemu

open Bytes

namespace Debug

open Infix

/-- What is done with the arrays: an entry of `tokens` is written, or a character of its
`str` or of `tmp`, and `strcmp` or `sscanf` reads the text of a token. -/
inductive Access where
  | entry (i : ℕ)
  | str (i k : ℕ)
  | tmp (k : ℕ)
  | text (s : Option (List Char))

/-- The arrays have 32 entries and 32 characters; a text ends inside. -/
def Access.Inside : Access → Prop
  | entry i => i < 32
  | str i k => i < 32 ∧ k < 32
  | tmp k => k < 32
  | text s => s.isSome = true

namespace Buffers

open Traced

/-! ### With the accesses -/

abbrev Accessing (α : Type) := Traced Access Unit α

/-- The characters that `strncpy(str, s, strlen(s))` writes. -/
def copy (event : ℕ → Access) (s : List Char) : Accessing Unit := upto (fun k => emit (event k)) s.length

/-- A string function reads the text of a token. -/
def readText (str : Option (List Char)) : Accessing (List Char) := do
  emit (.text str)
  lift str

/-- `make_token`. -/
def makeToken : ℕ → List Char → Tokens → ℕ → Accessing (Bool × Tokens × ℕ)
  | _, [], tokens, nr => pure (true, tokens, nr)
  | 0, _, tokens, nr => pure (false, tokens, nr)
  | fuel + 1, e, tokens, nr =>
    match firstRule e with
    | none => pure (false, tokens, nr)
    | some (.notype, n) => makeToken fuel (e.drop n) tokens nr
    | some (type, n) => do
      emit (.entry nr)
      copy (.str nr) (recorded type n e)
      let str := strncpy (tokens nr).str (recorded type n e)
      makeToken fuel (e.drop n) (Function.update tokens nr ⟨type, str⟩) (nr + 1)

/-- The loop over `symtab`. -/
def symbol (str : Option (List Char)) : List Symbol → Accessing Word
  | [] => fail
  | y :: symtab =>
    if y.isObject then do
      copy .tmp y.name
      emit (.tmp y.name.length)
      if y.name.length ≥ 32 then fail
      else do
        let check ← readText str
        if y.name = check then pure y.value else symbol str symtab
    else symbol str symtab

/-- The comparisons with `regsl`, `eip`, `regsw` and `regsb`. -/
def register (str : Option (List Char)) : List (String × Word) → Accessing Word
  | [] => fail
  | r :: l => do
    let check ← readText str
    if r.1.toList = check then pure r.2 else register str l

/-- `eval` of one token. -/
def evalToken (env : Env) (t : Token) : Accessing Word :=
  match t.type with
  | .mark => symbol t.str env.symtab
  | .hexnum => do
    let check ← readText t.str
    lift (sscanf 16 isHex (check.drop 2))
  | .num => do
    let check ← readText t.str
    lift (sscanf 10 Char.isDigit check)
  | .register => register t.str (registers env.cpu)
  | _ => fail

/-- `eval`. -/
def eval (env : Env) (l : List Token) : Accessing Word :=
  match l with
  | [] => fail
  | [t] => evalToken env t
  | t :: u :: l' =>
    let l := t :: u :: l'
    if checkParentheses l then eval env (l.drop 1).dropLast
    else
      let op := dominantOperator l
      if op = 0 then do
        let val ← eval env (l.drop 1)
        lift (evalUnary env (l[op]?.map (·.type)) val)
      else do
        let val1 ← eval env (l.take op)
        let val2 ← eval env (l.drop (op + 1))
        lift (evalBinary (l[op]?.map (·.type)) val1 val2)
  termination_by l.length
  decreasing_by
    all_goals have hop : dominantOperator (t :: u :: l') < (t :: u :: l').length :=
      dominantOperator_lt (List.cons_ne_nil _ _)
    all_goals simp only [List.length_dropLast, List.length_drop, List.length_take, List.length_cons] at hop ⊢
    all_goals omega

/-- `expr`. -/
def expr (env : Env) (e : List Char) (tokens : Tokens) : Accessing ((Word × Bool) × Tokens) :=
  if e.length > 32 then fail
  else do
    let r ← makeToken e.length e tokens 0
    match r with
    | (false, tokens, _) => pure ((0, false), tokens)
    | (true, tokens, nr) => do
      let l := view tokens nr
      let v ← eval env (reclassify none l)
      return ((v, true), retype (reclassify none l) tokens)

/-! ### The same values -/

section Result

variable {env : Env} {str : Option (List Char)} {l : List Token} {t : Token} {e : List Char} {tokens : Tokens}
  {fuel nr : ℕ}

@[simp] theorem result_copy (event : ℕ → Access) (s : List Char) : result (copy event s) () = some ((), ()) := by
  have hupto : ∀ n, result (upto (fun k => emit (event k)) n : Accessing Unit) () = some ((), ()) := by
    intro n
    induction n with
    | zero => rfl
    | succ n ih => rw [upto, result_bind, ih, Option.bind_some, result_emit]
  exact hupto s.length

@[simp] theorem result_readText (str : Option (List Char)) : result (readText str) () = str.map (·, ()) := by
  cases str <;> rfl

theorem result_makeToken (fuel : ℕ) (e : List Char) (tokens : Tokens) (nr : ℕ) :
    result (makeToken fuel e tokens nr) () = some (Debug.makeToken fuel e tokens nr, ()) := by
  induction fuel generalizing e tokens nr with
  | zero => cases e <;> rfl
  | succ fuel ih =>
    cases e with
    | nil => rfl
    | cons c e =>
      unfold makeToken Debug.makeToken
      cases firstRule (c :: e) with
      | none => rfl
      | some r =>
        rcases r with ⟨type, n⟩
        cases type <;> simp [ih]

theorem result_symbol (symtab : List Symbol) : result (symbol str symtab) () =
    (str.bind fun check => Debug.symbol check symtab).map (·, ()) := by
  induction symtab with
  | nil => cases str <;> rfl
  | cons y symtab ih =>
    unfold symbol Debug.symbol
    by_cases hobj : y.isObject = true
    · by_cases hlong : y.name.length ≥ 32
      · cases str <;> simp [hobj, hlong]
      · cases str with
        | none => simp [hobj, hlong]
        | some check =>
          by_cases hname : y.name = check
          · subst hname
            simp [hobj, hlong]
          · simpa [hobj, hlong, hname] using ih
    · simpa [hobj] using ih

theorem result_register (r : List (String × Word)) : result (register str r) () =
    (str.bind fun check => (r.find? fun r => r.1.toList == check).map (·.2)).map (·, ()) := by
  induction r with
  | nil => cases str <;> rfl
  | cons r l ih =>
    cases str with
    | none => rfl
    | some check =>
      by_cases hname : r.1.toList = check
      · simp [register, hname]
      · simpa [register, hname] using ih

theorem result_evalToken (t : Token) : result (evalToken env t) () = (Debug.evalToken env t).map (·, ()) := by
  rcases t with ⟨type, str⟩
  cases type with
  | mark => exact result_symbol _
  | register => exact result_register _
  | num => cases str <;> rfl
  | hexnum => cases str <;> rfl
  | _ => cases str <;> rfl

theorem eval_check (hlen : 2 ≤ l.length) (h : checkParentheses l = true) :
    eval env l = eval env (l.drop 1).dropLast := by
  rcases l with - | ⟨t, - | ⟨u, l⟩⟩
  · simp at hlen
  · simp at hlen
  · rw [eval]
    exact if_pos h

theorem eval_unary (hlen : 2 ≤ l.length) (h : checkParentheses l = false) (hop : dominantOperator l = 0) :
    eval env l = eval env (l.drop 1) >>= fun val => lift (evalUnary env (l[0]?.map (·.type)) val) := by
  rcases l with - | ⟨t, - | ⟨u, l⟩⟩
  · simp at hlen
  · simp at hlen
  · rw [eval]
    simp [h, hop]

theorem eval_binary (hlen : 2 ≤ l.length) (h : checkParentheses l = false) (hop : dominantOperator l ≠ 0) :
    eval env l = eval env (l.take (dominantOperator l)) >>= fun val1 =>
      eval env (l.drop (dominantOperator l + 1)) >>= fun val2 =>
        lift (evalBinary (l[dominantOperator l]?.map (·.type)) val1 val2) := by
  rcases l with - | ⟨t, - | ⟨u, l⟩⟩
  · simp at hlen
  · simp at hlen
  · rw [eval]
    simp [h, hop]

/-- **`eval` with the accesses** has the value of `eval`. -/
theorem result_eval (l : List Token) : result (eval env l) () = (Debug.eval env l).map (·, ()) := by
  induction l using tokens_induct with
  | nil => rw [eval, Debug.eval]; rfl
  | one t =>
    rw [eval, Debug.eval]
    exact result_evalToken t
  | check l hlen h ih => rw [eval_check hlen h, Debug.eval_check hlen h, ih]
  | unary l hlen h hop ih =>
    rw [eval_unary hlen h hop, Debug.eval_unary hlen h hop, result_bind, ih]
    cases Debug.eval env (l.drop 1) <;> rfl
  | binary l hlen h hop ihl ihr =>
    rw [eval_binary hlen h hop, Debug.eval_binary hlen h hop, result_bind, ihl]
    cases Debug.eval env (l.take (dominantOperator l)) with
    | none => rfl
    | some a =>
      rw [Option.map_some, Option.bind_some, result_bind, ihr]
      cases Debug.eval env (l.drop (dominantOperator l + 1)) <;> rfl

/-- **`expr` with the accesses** is `expr`. -/
theorem result_expr (env : Env) (e : List Char) (tokens : Tokens) :
    result (expr env e tokens) () = (Debug.expr env e tokens).map (·, ()) := by
  unfold expr Debug.expr
  split_ifs
  · rfl
  · rw [result_bind, result_makeToken, Option.bind_some]
    rcases Debug.makeToken e.length e tokens 0 with ⟨_ | _, tokens', nr⟩
    · rfl
    · dsimp only
      rw [result_bind, result_eval, evalTokens]
      cases Debug.eval env (reclassify none (view tokens' nr)) <;> rfl

end Result

end Buffers

/-! ### What `eval` comes to -/

/-- The tokens are those of an expression without a unary operator right after another,
whose operands and operations all have a value. -/
def HasValue (env : Env) (l : List Token) : Prop :=
  ∃ x : CExpr, Proper flat x ∧ Single x ∧ (tokens x).map strip = l.map strip ∧
    (strictWith env (Atom.seen env) x).isSome = true

/-- `eval` of `l` comes to the token `t`: what stands to the right of an operator is
evaluated if what stands to its left has a value. -/
inductive Reaches (env : Env) : List Token → Token → Prop where
  | one (t : Token) : Reaches env [t] t
  | check {l : List Token} {t : Token} (hlen : 2 ≤ l.length) (h : checkParentheses l = true)
      (ht : Reaches env (l.drop 1).dropLast t) : Reaches env l t
  | unary {l : List Token} {t : Token} (hlen : 2 ≤ l.length) (h : checkParentheses l = false)
      (hop : dominantOperator l = 0) (ht : Reaches env (l.drop 1) t) : Reaches env l t
  | left {l : List Token} {t : Token} (hlen : 2 ≤ l.length) (h : checkParentheses l = false)
      (hop : dominantOperator l ≠ 0) (ht : Reaches env (l.take (dominantOperator l)) t) : Reaches env l t
  | right {l : List Token} {t : Token} (hlen : 2 ≤ l.length) (h : checkParentheses l = false)
      (hop : dominantOperator l ≠ 0) (hleft : HasValue env (l.take (dominantOperator l)))
      (ht : Reaches env (l.drop (dominantOperator l + 1)) t) : Reaches env l t

section Reaches

variable {env : Env} {l : List Token} {t : Token} {x : CExpr} {v : Word}

/-- Where an expression is evaluated, no unary operator stands right after another. -/
theorem single_of_eval (h : eval env (tokens x) = some v) : Single x := by
  have hgood : List.IsChain Good ((items x).map token) := good_of_eval h (closings_tokens x)
  rw [List.isChain_map] at hgood
  apply List.IsChain.imp _ hgood
  intro i j hij
  cases i with
  | unary u =>
    cases j with
    | unary u' => cases u <;> cases u' <;> exact Bool.noConfusion (hij rfl)
    | _ => trivial
  | _ => trivial

/-- **`eval` returns** if and only if its tokens have a value. -/
theorem eval_isSome_iff (hl : ∀ t ∈ l, HexRight t) : (eval env l).isSome = true ↔ HasValue env l := by
  have hseen : (fun a : Atom => evalToken env a.token) = Atom.seen env := funext fun a => a.evalToken_token env
  constructor
  · intro h
    obtain ⟨v, hv⟩ := Option.isSome_iff_exists.mp h
    obtain ⟨x, hx⟩ := items_of_eval hv hl
    have hstrip : (tokens (shape flat x)).map strip = l.map strip := by
      rw [tokens, items_shape, List.map_map]
      exact hx
    have hval : eval env (tokens (shape flat x)) = some v := by rw [← eval_strip, hstrip, eval_strip, hv]
    have hsingle := single_of_eval hval
    refine ⟨shape flat x, proper_shape x, hsingle, hstrip, ?_⟩
    rw [← hseen, ← eval_tokens (proper_shape x) hsingle, hval]
    rfl
  · rintro ⟨x, hproper, hsingle, hstrip, hsome⟩
    rw [← eval_strip, ← hstrip, eval_strip, eval_tokens hproper hsingle, hseen]
    exact hsome

theorem reaches_nil : ¬ Reaches env [] t := by
  intro h
  cases h <;> simp at *

theorem reaches_one {u : Token} : Reaches env [u] t ↔ t = u := by
  constructor
  · intro h
    cases h with
    | one => rfl
    | _ => simp at *
  · rintro rfl
    exact .one t

theorem reaches_check (hlen : 2 ≤ l.length) (h : checkParentheses l = true) :
    Reaches env l t ↔ Reaches env (l.drop 1).dropLast t := by
  constructor
  · intro hr
    cases hr with
    | one => simp at hlen
    | check _ _ ht => exact ht
    | unary _ h' => exact absurd (h.symm.trans h') (by simp)
    | left _ h' => exact absurd (h.symm.trans h') (by simp)
    | right _ h' => exact absurd (h.symm.trans h') (by simp)
  · exact .check hlen h

theorem reaches_unary (hlen : 2 ≤ l.length) (h : checkParentheses l = false) (hop : dominantOperator l = 0) :
    Reaches env l t ↔ Reaches env (l.drop 1) t := by
  constructor
  · intro hr
    cases hr with
    | one => simp at hlen
    | check _ h' => exact absurd (h.symm.trans h') (by simp)
    | unary _ _ _ ht => exact ht
    | left _ _ hop' => exact absurd hop hop'
    | right _ _ hop' => exact absurd hop hop'
  · exact .unary hlen h hop

theorem reaches_binary (hlen : 2 ≤ l.length) (h : checkParentheses l = false) (hop : dominantOperator l ≠ 0) :
    Reaches env l t ↔ Reaches env (l.take (dominantOperator l)) t ∨
      HasValue env (l.take (dominantOperator l)) ∧ Reaches env (l.drop (dominantOperator l + 1)) t := by
  constructor
  · intro hr
    cases hr with
    | one => simp at hlen
    | check _ h' => exact absurd (h.symm.trans h') (by simp)
    | unary _ _ hop' => exact absurd hop' hop
    | left _ _ _ ht => exact .inl ht
    | right _ _ _ hleft ht => exact .inr ⟨hleft, ht⟩
  · rintro (ht | ⟨hleft, ht⟩)
    · exact .left hlen h hop ht
    · exact .right hlen h hop hleft ht

/-- `eval` comes to its tokens only. -/
theorem Reaches.mem (h : Reaches env l t) : t ∈ l := by
  induction h with
  | one t => exact List.mem_singleton_self t
  | check _ _ _ ih => exact List.mem_of_mem_drop (List.dropLast_subset _ ih)
  | unary _ _ _ _ ih => exact List.mem_of_mem_drop ih
  | left _ _ _ _ ih => exact List.mem_of_mem_take ih
  | right _ _ _ _ _ ih => exact List.mem_of_mem_drop ih

end Reaches

namespace Buffers

open Traced

/-! ### The accesses of `eval` -/

section Eval

variable {env : Env} {str : Option (List Char)} {l : List Token} {t : Token} {s : List Char}

theorem all_copy {event : ℕ → Access} (h : ∀ k < s.length, (event k).Inside) :
    All Access.Inside (copy event s) () :=
  all_upto fun k hk _ => all_emit.mpr (h k hk)

theorem all_bind_readText {α : Type} {k : List Char → Accessing α} :
    All Access.Inside (readText str >>= k) () ↔ ∃ check, str = some check ∧ All Access.Inside (k check) () := by
  have htext : All Access.Inside (readText str) () ↔ str.isSome = true := by
    rw [readText, all_bind_emit]
    simp [Access.Inside]
  rw [all_bind, htext, result_readText]
  cases str with
  | none => simp
  | some check =>
    simp only [Option.isSome_some, true_and, Option.map_some, Option.some.injEq, exists_eq_left']
    exact ⟨fun h => h check () rfl, fun h _ _ heq => (Prod.mk.inj heq).1 ▸ h⟩

/-- The copy of a name, with the null character. -/
theorem all_bind_copy_tmp {α : Type} {k : Unit → Accessing α} :
    All Access.Inside (copy .tmp s >>= fun _ => emit (.tmp s.length) >>= k) () ↔
      s.length < 32 ∧ All Access.Inside (k ()) () := by
  rw [all_bind_of_result (result_copy ..), all_bind_emit]
  apply and_iff_right_of_imp
  rintro ⟨hlen, -⟩
  exact all_copy fun k hk => hk.trans hlen

/-- A symbol is looked up inside `tmp` if and only if the names fit. -/
theorem all_symbol_some (symtab : List Symbol) :
    All Access.Inside (symbol (some s) symtab) () ↔ NameFits s symtab := by
  induction symtab with
  | nil => exact iff_of_true (all_fail _) nameFits_nil
  | cons y symtab ih =>
    rw [symbol, nameFits_cons]
    by_cases hobj : y.isObject = true
    · rw [if_pos hobj, all_bind_copy_tmp, forall_prop_of_true hobj]
      apply and_congr_right
      intro hlen
      rw [if_neg (Nat.not_le.mpr hlen), all_bind_readText]
      by_cases hname : y.name = s
      · simp [hobj, hname]
      · simp [hname, ih]
    · simp [hobj, ih]

/-- A text without an end is compared with the first object. -/
theorem all_symbol_none (symtab : List Symbol) :
    All Access.Inside (symbol none symtab) () ↔ ∀ y ∈ symtab, y.isObject = false := by
  induction symtab with
  | nil => simp [symbol]
  | cons y symtab ih =>
    rw [symbol, List.forall_mem_cons]
    by_cases hobj : y.isObject = true
    · rw [if_pos hobj, all_bind_copy_tmp]
      refine iff_of_false ?_ fun h => Bool.noConfusion (hobj.symm.trans h.1)
      rintro ⟨hlen, h⟩
      rw [if_neg (Nat.not_le.mpr hlen), all_bind_readText] at h
      obtain ⟨_, hcheck, -⟩ := h
      exact nomatch hcheck
    · simp [hobj, ih]

theorem all_register_some (r : List (String × Word)) : All Access.Inside (register (some s) r) () := by
  induction r with
  | nil => exact all_fail _
  | cons r l ih =>
    rw [register, all_bind_readText]
    refine ⟨s, rfl, ?_⟩
    split
    · exact all_pure _ _
    · exact ih

/-- One token with a text. -/
theorem all_evalToken_some (type : TokenType) :
    All Access.Inside (evalToken env ⟨type, some s⟩) () ↔ (type = .mark → NameFits s env.symtab) := by
  cases type with
  | mark => simpa [evalToken] using all_symbol_some env.symtab
  | register => simpa [evalToken] using all_register_some _
  | num => simp [evalToken, all_bind_readText]
  | hexnum => simp [evalToken, all_bind_readText]
  | _ => simp [evalToken]

/-- One token whose text has no end. -/
theorem all_evalToken_none (type : TokenType) :
    All Access.Inside (evalToken env ⟨type, none⟩) () ↔
      (isOperand type = true → type = .mark ∧ ∀ y ∈ env.symtab, y.isObject = false) := by
  cases type with
  | mark => simpa [evalToken, isOperand] using all_symbol_none env.symtab
  | register => simp [evalToken, isOperand, registers, register, all_bind_readText]
  | num => simp [evalToken, isOperand, all_bind_readText]
  | hexnum => simp [evalToken, isOperand, all_bind_readText]
  | _ => simp [evalToken, isOperand]

/-- **The accesses of `eval`** are those of the tokens that it comes to. -/
theorem all_eval (hl : ∀ t ∈ l, HexRight t) : All Access.Inside (eval env l) () ↔
    ∀ t, Reaches env l t → All Access.Inside (evalToken env t) () := by
  induction l using tokens_induct with
  | nil => simp [eval, reaches_nil]
  | one t => simp [eval, reaches_one]
  | check l hlen h ih =>
    rw [eval_check hlen h, ih fun t ht => hl t (List.mem_of_mem_drop (List.dropLast_subset _ ht))]
    simp only [reaches_check hlen h]
  | unary l hlen h hop ih =>
    rw [eval_unary hlen h hop, all_bind_lift, ih fun t ht => hl t (List.mem_of_mem_drop ht)]
    simp only [reaches_unary hlen h hop]
  | binary l hlen h hop ihl ihr =>
    have hleft : ∀ t ∈ l.take (dominantOperator l), HexRight t := fun t ht => hl t (List.mem_of_mem_take ht)
    have hright : ∀ t ∈ l.drop (dominantOperator l + 1), HexRight t := fun t ht => hl t (List.mem_of_mem_drop ht)
    have hvalue : (∀ a u, result (eval env (l.take (dominantOperator l))) () = some (a, u) →
        All Access.Inside (eval env (l.drop (dominantOperator l + 1))) ()) ↔
        (HasValue env (l.take (dominantOperator l)) →
          All Access.Inside (eval env (l.drop (dominantOperator l + 1))) ()) := by
      rw [result_eval, ← eval_isSome_iff hleft]
      cases Debug.eval env (l.take (dominantOperator l)) <;> simp
    rw [eval_binary hlen h hop, all_bind]
    simp only [all_bind_lift, reaches_binary hlen h hop, or_imp, forall_and, and_imp]
    rw [hvalue, ihl hleft, ihr hright]
    exact and_congr_right fun _ => forall_comm

end Eval

end Buffers

/-! ### What `make_token` records -/

/-- A match takes a character at least. -/
def Takes (m : List Char → Option ℕ) : Prop := ∀ e n, m e = some n → 1 ≤ n ∧ n ≤ e.length

section Takes

variable {e s : List Char} {p : Char → Bool} {type : TokenType} {fuel n : ℕ}

theorem literal_takes (hs : s ≠ []) : Takes (literal s) := by
  intro e n h
  unfold literal at h
  split_ifs at h with hpre
  obtain rfl := Option.some.inj h
  exact ⟨List.length_pos_iff.mpr hs, (List.isPrefixOf_iff_prefix.mp hpre).length_le⟩

theorem many_takes : Takes (many p) := by
  intro e n h
  unfold many at h
  split_ifs at h with hzero
  obtain rfl := Option.some.inj h
  exact ⟨Nat.pos_of_ne_zero hzero, (List.takeWhile_prefix p).length_le⟩

theorem after_takes (hs : s ≠ []) : Takes (after s p) := by
  intro e n h
  rcases Option.bind_eq_some_iff.mp h with ⟨k, hk, h⟩
  rcases Option.bind_eq_some_iff.mp h with ⟨m, hm, h⟩
  obtain rfl := Option.some.inj h
  have hliteral := literal_takes hs e k hk
  have hmany := many_takes _ m hm
  rw [List.length_drop] at hmany
  omega

theorem rules_takes : ∀ r ∈ rules, Takes r.1 := by
  simp [rules, literal_takes, many_takes, after_takes]

theorem firstRule_takes (h : firstRule e = some (type, n)) : 1 ≤ n ∧ n ≤ e.length := by
  obtain ⟨r, hr, -, hmatch⟩ := mem_rules_of_firstRule h
  exact rules_takes r hr e n hmatch

theorem length_recorded_le (type : TokenType) (n : ℕ) (e : List Char) : (recorded type n e).length ≤ n := by
  cases type <;> simp [recorded]

/-- There are no more tokens than characters, and no text is longer than the whole. One that is
as long is the only one. -/
theorem lex_bounds (fuel : ℕ) (e : List Char) : (lex fuel e).1.length ≤ e.length ∧
    (e = [] → (lex fuel e).2 = true) ∧
    ∀ t ∈ (lex fuel e).1, t.2.length ≤ e.length ∧ (e.length ≤ t.2.length → lex fuel e = ([t], true)) := by
  apply lex_induct (motive := fun e r => r.1.length ≤ e.length ∧ (e = [] → r.2 = true) ∧
    ∀ t ∈ r.1, t.2.length ≤ e.length ∧ (e.length ≤ t.2.length → r = ([t], true)))
  · intro e b h
    simpa using h
  · intro e n r hrule ih
    have htakes := firstRule_takes hrule
    have hlength : (e.drop n).length = e.length - n := List.length_drop
    refine ⟨by omega, ?_, fun t ht => ?_⟩
    · rintro rfl
      simp at htakes
      omega
    · have hle := (ih.2.2 t ht).1
      exact ⟨by omega, fun h => absurd h (by omega)⟩
  · intro e type n r hrule ih
    have htakes := firstRule_takes hrule
    have hrecorded := length_recorded_le type n e
    have hlength : (e.drop n).length = e.length - n := List.length_drop
    rw [List.length_cons, List.forall_mem_cons]
    dsimp only
    refine ⟨by omega, ?_, ⟨by omega, fun h => ?_⟩, fun t ht => ?_⟩
    · rintro rfl
      simp at htakes
      omega
    · have hrest : e.drop n = [] := List.length_eq_zero_iff.mp (by omega)
      have hnone : r.1 = [] := List.length_eq_zero_iff.mp (by omega)
      rw [hnone, ih.2.1 hrest]
    · have hle := (ih.2.2 t ht).1
      exact ⟨by omega, fun h => absurd h (by omega)⟩

end Takes

/-! ### Texts without an end -/

section Runs

variable {calls : List (List Char)} {tokens tokens' : Tokens} {env : Env} {e s : List Char} {str : ℕ → Char}
  {t : TokenType × List Char} {i : ℕ}

theorem text_isSome_iff : (text str).isSome = true ↔ ∃ k < 32, str k = nul := by
  have hlength : ((List.range 32).map str).length = 32 := by simp
  have htake : ((List.range 32).map str).takeWhile (· != nul) <+: (List.range 32).map str :=
    List.takeWhile_prefix _
  have hwhole : ((List.range 32).map str).takeWhile (· != nul) = (List.range 32).map str ↔
      ∀ k < 32, str k ≠ nul := by
    rw [List.takeWhile_eq_self_iff]
    simp
  have hle := htake.length_le
  unfold text
  dsimp only
  split_ifs with h
  · refine iff_of_true rfl ?_
    by_contra hnone
    rw [hwhole.mpr fun k hk hnul => hnone ⟨k, hk, hnul⟩] at h
    omega
  · refine iff_of_false (by simp) ?_
    rintro ⟨k, hk, hnul⟩
    exact hwhole.mp (htake.eq_of_length (by omega)) k hk hnul

/-- An expression that is one token has no text with an end, if it has 32 characters. -/
theorem readIn_eq_of_long (hlen : e.length ≤ 32) (ht : t ∈ tokensOf e) (hlong : 32 ≤ t.2.length)
    (tokens : Tokens) : recognised e = true ∧ readIn tokens e = [⟨t.1, none⟩] := by
  have hlex : lex e.length e = ([t], true) := ((lex_bounds _ e).2.2 t ht).2 (by omega)
  have hclean : ∀ c ∈ t.2, c ≠ nul := lex_clean _ e t ht
  have hnone : text (strncpy (tokens 0).str t.2) = none := by
    rw [← Option.not_isSome_iff_eq_none, text_isSome_iff]
    rintro ⟨k, hk, hnul⟩
    rw [strncpy_of_lt (by omega)] at hnul
    exact hclean _ (List.getElem_mem _) hnul
  have htokens : tokensOf e = [t] := congrArg Prod.fst hlex
  refine ⟨congrArg Prod.snd hlex, ?_⟩
  rw [readIn, htokens]
  simp [view, put_zero, hnone]

/-- So it has no value, and after every run of `expr` all texts left room. -/
theorem ExprRun.short (h : ExprRun calls tokens) : ∀ e ∈ calls, ∀ t ∈ tokensOf e, t.2.length < 32 := by
  induction h with
  | init => exact fun e he => (List.not_mem_nil he).elim
  | @call calls tokens tokens' env e r _ hexpr ih =>
    rw [List.forall_mem_append, List.forall_mem_singleton]
    refine ⟨ih, fun t ht => ?_⟩
    by_contra hlong
    rw [expr_eq] at hexpr
    split_ifs at hexpr with hlen hrec
    · obtain ⟨-, hread⟩ := readIn_eq_of_long (Nat.le_of_not_lt hlen) ht (Nat.le_of_not_lt hlong) tokens
      rw [hread, evalTokens, reclassify_cons, reclassify, eval, evalToken] at hexpr
      cases hexpr
    · exact hrec (readIn_eq_of_long (Nat.le_of_not_lt hlen) ht (Nat.le_of_not_lt hlong) tokens).1

/-- **A text ends inside its 32 characters** if and only if what was matched is shorter. -/
theorem ExprRun.text_isSome (h : ExprRun calls tokens) (hi : (tokensOf e)[i]? = some t) :
    (text (strncpy (tokens i).str t.2)).isSome = true ↔ t.2.length < 32 := by
  have hclean : ∀ c ∈ t.2, c ≠ nul := lex_clean _ e t (List.mem_of_getElem? hi)
  rw [text_isSome_iff]
  constructor
  · rintro ⟨k, hk, hnul⟩
    by_contra hlong
    rw [strncpy_of_lt (by omega)] at hnul
    exact hclean _ (List.getElem_mem _) hnul
  · intro hlen
    refine ⟨31, by norm_num, ?_⟩
    rw [strncpy_of_ge (by omega), h.nul_iff]
    intro e' he' t' ht'
    have hshort := h.short e' he' t' (List.mem_of_getElem? ht')
    omega

theorem isOperand_classified (check : Option TokenType) {type : TokenType} (h : isOperand type = true) :
    classified check type = type := by
  unfold classified
  split_ifs with h1 h2 h3
  · rfl
  · rw [h2] at h
    exact nomatch h
  · rw [h3] at h
    exact nomatch h
  · rfl

/-- The classification leaves the texts and the operands. -/
theorem mem_reclassify {l : List Token} {t : Token} {check : Option TokenType} (h : t ∈ reclassify check l) :
    ∃ u ∈ l, t.str = u.str ∧ (isOperand t.type = true → t.type = u.type) := by
  induction l generalizing check with
  | nil => exact absurd h List.not_mem_nil
  | cons u l ih =>
    rw [reclassify_cons, List.mem_cons] at h
    rcases h with rfl | h
    · refine ⟨u, List.mem_cons_self .., rfl, ?_⟩
      dsimp only [classified]
      split_ifs
      · exact fun _ => rfl
      · exact fun hop => nomatch hop
      · exact fun hop => nomatch hop
      · exact fun _ => rfl
    · obtain ⟨u', hu', hstr, htype⟩ := ih h
      exact ⟨u', List.mem_cons_of_mem _ hu', hstr, htype⟩

/-- What `eval` is given, and what was matched. -/
theorem ExprRun.mem_reclassify (h : ExprRun calls tokens) {t : Token} (ht : t ∈ reclassify none (readIn tokens e)) :
    ∃ m ∈ tokensOf e, (isOperand t.type = true → t.type = m.1) ∧ (t.str.isSome = true ↔ m.2.length < 32) := by
  obtain ⟨u, hu, hstr, htype⟩ := Debug.mem_reclassify ht
  obtain ⟨i, hi, rfl⟩ := List.mem_map.mp hu
  have hlt : i < (tokensOf e).length := List.mem_range.mp hi
  have hget : (tokensOf e)[i]? = some (tokensOf e)[i] := List.getElem?_eq_getElem hlt
  refine ⟨_, List.mem_of_getElem? hget, ?_, ?_⟩
  · intro hop
    rw [htype hop, put_zero, hget]
    rfl
  · rw [hstr, put_zero, hget]
    exact h.text_isSome hget

end Runs

/-! ### The accesses of `expr` -/

/-- The operands of `e` leave room for a null character, or are symbols that are compared
with nothing. -/
def ShortOperands (env : Env) (e : List Char) : Prop :=
  ∀ t ∈ tokensOf e, isOperand t.1 = true →
    t.2.length < 32 ∨ t.1 = .mark ∧ ∀ y ∈ env.symtab, y.isObject = false

/-- Where `eval` comes to a symbol, the names of the objects fit. -/
def NamesFitAt (env : Env) (tokens : Tokens) (e : List Char) : Prop :=
  ∀ s, Reaches env (reclassify none (readIn tokens e)) ⟨.mark, some s⟩ → NameFits s env.symtab

namespace Buffers

open Traced

section Inside

variable {calls : List (List Char)} {tokens : Tokens} {env : Env} {e : List Char} {fuel nr : ℕ}

/-- **What `make_token` writes** is inside. -/
theorem all_makeToken (h : nr + e.length ≤ 32) : All Access.Inside (makeToken fuel e tokens nr) () := by
  induction fuel generalizing e tokens nr with
  | zero => cases e <;> exact all_pure _ _
  | succ fuel ih =>
    cases e with
    | nil => exact all_pure _ _
    | cons c e =>
      unfold makeToken
      cases hrule : firstRule (c :: e) with
      | none => exact all_pure _ _
      | some r =>
        rcases r with ⟨type, n⟩
        have htakes := firstRule_takes hrule
        have hrecorded := length_recorded_le type n (c :: e)
        have hrest : ∀ {nr : ℕ} {tokens : Tokens}, nr + (c :: e).length ≤ 32 + n →
            All Access.Inside (makeToken fuel ((c :: e).drop n) tokens nr) () := by
          intro nr tokens hnr
          apply ih
          rw [List.length_drop]
          omega
        have hrecord : All Access.Inside (do
            emit (.entry nr)
            copy (.str nr) (recorded type n (c :: e))
            makeToken fuel ((c :: e).drop n) (Function.update tokens nr
              ⟨type, strncpy (tokens nr).str (recorded type n (c :: e))⟩) (nr + 1)) () := by
          have hnr : nr < 32 := by omega
          rw [all_bind_emit, all_bind_of_result (result_copy ..)]
          exact ⟨hnr, all_copy fun k hk => ⟨hnr, by omega⟩, hrest (by omega)⟩
        by_cases htype : type = .notype
        · subst htype
          exact hrest (by omega)
        · cases type <;> first | exact absurd rfl htype | exact hrecord

/-- **The accesses of `expr`**, whatever was in the array. -/
theorem all_expr (hlen : e.length ≤ 32) (tokens : Tokens) : All Access.Inside (expr env e tokens) () ↔
    (recognised e = true → ∀ t, Reaches env (reclassify none (readIn tokens e)) t →
      All Access.Inside (evalToken env t) ()) := by
  have hmake : All Access.Inside (makeToken e.length e tokens 0) () := all_makeToken (by omega)
  rw [expr, if_neg (Nat.not_lt.mpr hlen), all_bind_of_result (result_makeToken ..), and_iff_right hmake, makeToken_eq,
    zero_add]
  cases hrec : (lex e.length e).2 with
  | false => exact iff_of_true (all_pure _ _) fun h => Bool.noConfusion (hrec.symm.trans h)
  | true =>
    rw [recognised, hrec, forall_prop_of_true rfl, ← all_eval (hexRight_reclassify none (hexRight_readIn tokens e))]
    dsimp only
    rw [all_bind]
    exact and_iff_left fun _ _ _ => all_pure _ _

/-- **The buffers are respected** if and only if the text is not recognised, or its operands
are shorter than 32 characters and the names fit that its symbols are compared with. -/
theorem expr_inside_iff (h : ExprRun calls tokens) (hlen : e.length ≤ 32) (env : Env) :
    All Access.Inside (expr env e tokens) () ↔
      (recognised e = true → ShortOperands env e ∧ NamesFitAt env tokens e) := by
  rw [all_expr hlen]
  apply forall_congr'
  intro _
  constructor
  · intro hall
    refine ⟨fun m hm hoperand => ?_, fun s hs => (all_evalToken_some .mark).mp (hall _ hs) rfl⟩
    rcases Nat.lt_or_ge m.2.length 32 with hshort | hlong
    · exact .inl hshort
    · obtain ⟨-, hread⟩ := readIn_eq_of_long hlen hm hlong tokens
      have hone : Reaches env (reclassify none (readIn tokens e)) ⟨m.1, none⟩ := by
        rw [hread, reclassify_cons, reclassify, isOperand_classified none hoperand]
        exact .one _
      exact .inr ((all_evalToken_none m.1).mp (hall _ hone) hoperand)
  · rintro ⟨hshort, hnames⟩ ⟨type, _ | s⟩ ht
    · rw [all_evalToken_none]
      intro hoperand
      obtain ⟨m, hm, htype, hsome⟩ := h.mem_reclassify ht.mem
      obtain rfl : type = m.1 := htype hoperand
      exact (hshort m hm hoperand).resolve_left fun hlt => Bool.noConfusion (hsome.mpr hlt)
    · rw [all_evalToken_some]
      rintro rfl
      exact hnames s ht

end Inside

/-- One object with this name. -/
def objectEnv (name : List Char) : Env := { noEnv with symtab := [⟨true, name, 0⟩] }

/-- `x+1` after `2`. -/
theorem expr_inside_iff_sum : ∃ tokens, ExprRun [['2']] tokens ∧
    All Access.Inside (expr (objectEnv ['x']) ['x', '+', '1'] tokens) () := by
  have hrun : ExprRun [['2']] _ :=
    .call .init (show Debug.expr noEnv ['2'] noTokens = _ from expr_one (v := 2) (by decide) rfl rfl rfl)
  refine ⟨_, hrun, (expr_inside_iff hrun (by decide) _).mpr fun _ => ⟨?_, ?_⟩⟩
  · have htokens : tokensOf ['x', '+', '1'] = [(.mark, ['x']), (.plus, ['+']), (.num, ['1'])] := rfl
    simp [ShortOperands, htokens]
  · intro s _
    exact nameFits_cons.mpr ⟨fun _ => by decide, fun _ => nameFits_nil⟩

/-- A number of 32 characters has no end in its `str`; a name of 32 characters has its null
character behind `tmp`. -/
theorem expr_not_inside :
    ¬ All Access.Inside (expr noEnv (List.replicate 32 '1') noTokens) () ∧
    ¬ All Access.Inside (expr (objectEnv (List.replicate 32 'a')) ['x'] noTokens) () := by
  constructor
  · have htoken : (.num, List.replicate 32 '1') ∈ tokensOf (List.replicate 32 '1') := List.mem_singleton.mpr rfl
    obtain ⟨hrec, hread⟩ := readIn_eq_of_long (le_of_eq rfl) htoken (le_of_eq rfl) noTokens
    rw [all_expr (le_of_eq rfl), hread]
    intro h
    have hone := (all_evalToken_none .num).mp (h hrec _ (.one _)) rfl
    exact nomatch hone.1
  · rw [all_expr (by decide)]
    intro h
    have hone := (all_evalToken_some .mark).mp (h rfl ⟨.mark, some ['x']⟩ (.one _)) rfl
    have hname := (nameFits_cons.mp hone).1 rfl
    exact absurd hname (by decide)

end Buffers

end Debug

end Nemu
