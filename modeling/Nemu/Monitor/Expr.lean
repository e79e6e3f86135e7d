/-
# The expressions of the debugger

`expr.c`: `make_token` cuts a text into the array `tokens`, `expr` tells the
unary operators from the binary ones, and `eval` computes the value. A regular
expression is the length of its match at the start of a text. `eval(p, q)` is
`eval` on the tokens from `p` to `q`; it is `none` where an assertion fails and
where the behaviour is undefined: a division by zero, a number that does not fit
(`sscanf`), and a name that overflows `tmp`. Reading memory is taken from the
outside, and does not change what is read afterwards.

Key definitions: `Token`, `rules`, `makeToken`, `checkParentheses`,
`dominantOperator`, `eval`, `reclassify`, `expr`.
-/
import Nemu.Cpu.Machine

namespace Nemu

open Bytes

namespace Debug

/-- The types of tokens; `minus`, `star` and `not` are unary. -/
inductive TokenType where
  | notype | eq | num | hexnum | neq | register | and | or | minus | star | mark
  | lpar | rpar | plus | sub | div | mul | not
  deriving DecidableEq

/-! ### The rules -/

def nul : Char := Char.ofNat 0

def isHex (c : Char) : Bool := c.isDigit || ('a' ≤ c && c ≤ 'f') || ('A' ≤ c && c ≤ 'F')

/-- The length of the match of a literal text. -/
def literal (s e : List Char) : Option ℕ := if s.isPrefixOf e then some s.length else none

/-- The length of the match of `[p]+`. -/
def many (p : Char → Bool) (e : List Char) : Option ℕ :=
  if (e.takeWhile p).length = 0 then none else some (e.takeWhile p).length

/-- The length of the match of a literal text and `[p]+`. -/
def after (s : List Char) (p : Char → Bool) (e : List Char) : Option ℕ := do
  let n ← literal s e
  let m ← many p (e.drop n)
  return n + m

/-- `rules`. -/
def rules : List ((List Char → Option ℕ) × TokenType) := [
  (literal ['('], .lpar),
  (literal [')'], .rpar),
  (after ['0', 'x'] isHex, .hexnum),
  (many Char.isDigit, .num),
  (after ['$'] Char.isAlpha, .register),
  (many fun c => c.isAlphanum || c == '_', .mark),
  (many (· == ' '), .notype),
  (literal ['+'], .plus),
  (literal ['=', '='], .eq),
  (literal ['!', '='], .neq),
  (literal ['-'], .sub),
  (literal ['/'], .div),
  (literal ['*'], .mul),
  (literal ['!'], .not),
  (literal ['&', '&'], .and),
  (literal ['|', '|'], .or)]

/-- The first rule that matches, and the length of the match. -/
def firstRule (e : List Char) : Option (TokenType × ℕ) :=
  rules.findSome? fun r => (r.1 e).map fun n => (r.2, n)

/-! ### The array of tokens -/

/-- An entry of `tokens`; `str` has 32 characters. -/
structure Entry where
  type : TokenType
  str : ℕ → Char

/-- `tokens`; it has 32 entries. -/
abbrev Tokens := ℕ → Entry

/-- `tokens` before it is used. -/
def noTokens : Tokens := fun _ => ⟨.notype, fun _ => nul⟩

/-- `strncpy(str, s, strlen(s))`: without a null character at the end. -/
def strncpy (str : ℕ → Char) (s : List Char) : ℕ → Char := fun k => s.getD k (str k)

/-- The text that a string function reads at `str`; `none` where it reads on
after the end. -/
def text (str : ℕ → Char) : Option (List Char) :=
  let s := ((List.range 32).map str).takeWhile (· != nul)
  if s.length < 32 then some s else none

/-- What of a match of `n` characters is recorded. -/
def recorded (type : TokenType) (n : ℕ) (e : List Char) : List Char :=
  match type with
  | .register => (e.take n).drop 1
  | _ => e.take n

/-- `make_token`, with `tokens` and `nr_token`; every match takes a character, so
that the length of the text is fuel enough. -/
def makeToken : ℕ → List Char → Tokens → ℕ → Bool × Tokens × ℕ
  | _, [], tokens, nr => (true, tokens, nr)
  | 0, _, tokens, nr => (false, tokens, nr)
  | fuel + 1, e, tokens, nr =>
    match firstRule e with
    | none => (false, tokens, nr)
    | some (.notype, n) => makeToken fuel (e.drop n) tokens nr
    | some (type, n) =>
      let str := strncpy (tokens nr).str (recorded type n e)
      makeToken fuel (e.drop n) (Function.update tokens nr ⟨type, str⟩) (nr + 1)

/-! ### The value -/

/-- A token, with the text that is read at its `str`. -/
structure Token where
  type : TokenType
  str : Option (List Char)

/-- A symbol of `symtab`: whether it is an object, its name and its value. -/
structure Symbol where
  isObject : Bool
  name : List Char
  value : Word

/-- What an expression is about: the processor, the symbols, and
`swaddr_read(addr, 4, 3)`. -/
structure Env where
  cpu : CpuState
  symtab : List Symbol
  read : Word → Option Word

def digit (c : Char) : ℕ :=
  if c.isDigit then c.toNat - '0'.toNat
  else if 'a' ≤ c then c.toNat - 'a'.toNat + 10
  else c.toNat - 'A'.toNat + 10

/-- The number with these digits. -/
def numeral (base : ℕ) (s : List Char) : ℕ := s.foldl (fun v c => base * v + digit c) 0

/-- A number as a word, if it fits. -/
def fits (n : ℕ) : Option Word := if n < 2 ^ 32 then some (BitVec.ofNat 32 n) else none

/-- `sscanf` with `%u`, or with `%x` after `0x`. -/
def sscanf (base : ℕ) (p : Char → Bool) (s : List Char) : Option Word :=
  if (s.takeWhile p).length = 0 then none else fits (numeral base (s.takeWhile p))

/-- The names that `eval` compares: `regsl`, `eip`, `regsw`, and `regsb` up to `R_AH`. -/
def registers (c : CpuState) : List (String × Word) := [
  ("eax", c.reg .l 0), ("ecx", c.reg .l 1), ("edx", c.reg .l 2), ("ebx", c.reg .l 3),
  ("esp", c.reg .l 4), ("ebp", c.reg .l 5), ("esi", c.reg .l 6), ("edi", c.reg .l 7),
  ("eip", c.eip),
  ("ax", c.reg .w 0), ("cx", c.reg .w 1), ("dx", c.reg .w 2), ("bx", c.reg .w 3),
  ("sp", c.reg .w 4), ("bp", c.reg .w 5), ("si", c.reg .w 6), ("di", c.reg .w 7),
  ("al", c.reg .b 0), ("cl", c.reg .b 1), ("dl", c.reg .b 2), ("bl", c.reg .b 3),
  -- the last loop is `for (k = R_AL; k <= R_AH; k++)`
  ("ah", c.reg .b 4)]

def register (c : CpuState) (s : List Char) : Option Word :=
  ((registers c).find? fun r => r.1.toList == s).map (·.2)

/-- The loop over `symtab`: the name of each object is copied to `tmp`, which has
32 characters. -/
def symbol (s : List Char) : List Symbol → Option Word
  | [] => none
  | y :: symtab =>
    if y.isObject then
      if y.name.length ≥ 32 then none
      else if y.name = s then some y.value
      else symbol s symtab
    else symbol s symtab

/-- `eval` of one token. -/
def evalToken (env : Env) (t : Token) : Option Word := do
  let check ← t.str
  match t.type with
  | .mark => symbol check env.symtab
  | .hexnum => sscanf 16 isHex (check.drop 2)
  | .num => sscanf 10 Char.isDigit check
  | .register => register env.cpu check
  | _ => none

/-- What a token adds to the count of closing parentheses. -/
def closing : TokenType → ℤ
  | .rpar => 1
  | .lpar => -1
  | _ => 0

/-- The loop of `check_parentheses`; the count at its end. -/
def parentheses : List Token → ℤ → Option ℤ
  | [], count => some count
  | t :: l, count =>
    let count := count - closing t.type
    if count < 0 then none else parentheses l count

/-- `check_parentheses`. -/
def checkParentheses (l : List Token) : Bool :=
  (l.head?.map (·.type) == some .lpar) && (l.getLast?.map (·.type) == some .rpar) &&
    (parentheses (l.drop 1).dropLast 0 == some 0)

/-- The priority of an operator in `dominant_operator`; `&&` and `||` have none. -/
def priorityOf : TokenType → Option ℕ
  | .eq | .neq => some 1
  | .plus | .sub => some 2
  | .mul | .div => some 3
  | .star | .minus | .not => some 4
  | _ => none

def isOperand : TokenType → Bool
  | .num | .hexnum | .register | .mark => true
  | _ => false

/-- The loop of `dominant_operator`, over the tokens from the last one to the
first; `rest.length` is the index of the present one. -/
def dominantScan : List Token → ℤ → ℕ → ℕ → ℕ
  | [], _, result, _ => result
  | t :: rest, is, result, priority =>
    let is := is + closing t.type
    if isOperand t.type ∨ is ≠ 0 then dominantScan rest is result priority
    else if t.type = .and ∨ t.type = .or then rest.length
    else
      match priorityOf t.type with
      | some k =>
        if priority > k then dominantScan rest is rest.length k
        else dominantScan rest is result priority
      | none => dominantScan rest is result priority

/-- `dominant_operator`. -/
def dominantOperator (l : List Token) : ℕ := dominantScan l.reverse 0 0 100

theorem dominantScan_lt {n : ℕ} (l : List Token) (is : ℤ) (result priority : ℕ) (hl : l.length ≤ n)
    (hresult : result < n) : dominantScan l is result priority < n := by
  induction l generalizing is result priority with
  | nil => exact hresult
  | cons t l ih =>
    simp only [List.length_cons] at hl
    unfold dominantScan
    dsimp only
    split_ifs
    · exact ih _ _ _ (by omega) hresult
    · omega
    · split
      · split_ifs
        · exact ih _ _ _ (by omega) (by omega)
        · exact ih _ _ _ (by omega) hresult
      · exact ih _ _ _ (by omega) hresult

theorem dominantOperator_lt {l : List Token} (h : l ≠ []) : dominantOperator l < l.length :=
  dominantScan_lt _ _ _ _ (by simp) (List.length_pos_iff.mpr h)

def boolWord (b : Bool) : Word := if b then 1 else 0

/-- The unary operators of `eval`. -/
def evalUnary (env : Env) (type : Option TokenType) (val : Word) : Option Word :=
  match type with
  | some .minus => some (-val)
  | some .star => env.read val
  | some .not => some (boolWord (val == 0))
  | _ => none

/-- The binary operators of `eval`. -/
def evalBinary (type : Option TokenType) (val1 val2 : Word) : Option Word :=
  match type with
  | some .plus => some (val1 + val2)
  | some .sub => some (val1 - val2)
  | some .mul => some (val1 * val2)
  | some .div => if val2 = 0 then none else some (val1 / val2)
  | some .eq => some (boolWord (val1 == val2))
  | some .neq => some (boolWord (val1 != val2))
  | some .and => some (boolWord (val1 != 0 && val2 != 0))
  | some .or => some (boolWord (val1 != 0 || val2 != 0))
  | _ => none

/-- `eval`. -/
def eval (env : Env) (l : List Token) : Option Word :=
  match l with
  | [] => none
  | [t] => evalToken env t
  | t :: u :: l' =>
    let l := t :: u :: l'
    if checkParentheses l then eval env (l.drop 1).dropLast
    else
      let op := dominantOperator l
      if op = 0 then do
        let val ← eval env (l.drop 1)
        evalUnary env (l[op]?.map (·.type)) val
      else do
        let val1 ← eval env (l.take op)
        let val2 ← eval env (l.drop (op + 1))
        evalBinary (l[op]?.map (·.type)) val1 val2
  termination_by l.length
  decreasing_by
    all_goals have hop : dominantOperator (t :: u :: l') < (t :: u :: l').length :=
      dominantOperator_lt (List.cons_ne_nil _ _)
    all_goals simp only [List.length_dropLast, List.length_drop, List.length_take, List.length_cons] at hop ⊢
    all_goals omega

/-! ### The whole -/

/-- After these tokens `*` and `-` are binary. -/
def endsOperand : Option TokenType → Bool
  | some .num | some .hexnum | some .register | some .rpar => true
  | _ => false

/-- The loop of `expr`; `check` is the type of the token before. -/
def reclassify : Option TokenType → List Token → List Token
  | _, [] => []
  | check, t :: l =>
    let type :=
      if endsOperand check then t.type
      else if t.type = .mul then .star
      else if t.type = .sub then .minus
      else t.type
    ⟨type, t.str⟩ :: reclassify (some type) l

/-- The value of the tokens that were recognised. -/
def evalTokens (env : Env) (l : List Token) : Option Word := eval env (reclassify none l)

/-- The first `nr` tokens. -/
def view (tokens : Tokens) (nr : ℕ) : List Token :=
  (List.range nr).map fun i => ⟨(tokens i).type, text (tokens i).str⟩

/-- The types are written back. -/
def retype (l : List Token) (tokens : Tokens) : Tokens :=
  fun i => ⟨(l[i]?.map (·.type)).getD (tokens i).type, (tokens i).str⟩

/-- `expr`: the value and `*success`, and `tokens` afterwards; `none` where it does not
return. -/
def expr (env : Env) (e : List Char) (tokens : Tokens) : Option ((Word × Bool) × Tokens) :=
  if e.length > 32 then none
  else
    match makeToken e.length e tokens 0 with
    | (false, tokens, _) => some ((0, false), tokens)
    | (true, tokens, nr) => do
      let l := view tokens nr
      let v ← evalTokens env l
      return ((v, true), retype (reclassify none l) tokens)

end Debug

end Nemu
