/-
# The backtrace of the debugger

`cmd_bt` goes along the chain of saved `EBP`s and prints, for each frame, the name
of a function for its code address. The search takes the first function with
`st_value ≤ address ≤ st_value + st_size`, the end included; where there is none,
`tmp` keeps what an earlier frame has put there. Reading `tmp` before anything
has been put there, and a name too long for it, are undefined. Reading memory is
taken from the outside, and does not change what is read afterwards.

Key definitions: `Elf32Sym`, `readEbp`, `btFrame`, `cmdBt`, `Chain`, `Attributed`.
Key theorems: `btLoop_iff`, `printed_right_iff`, `cmdBt_iff`.
-/
import Nemu.Cpu.Machine

namespace Nemu

open Bytes

namespace Debug

/-! ### The command -/

/-- An entry of `symtab`, with the text of `strtab` at its `st_name`. -/
structure Elf32Sym where
  stName : List Char
  stValue : Word
  stSize : Word
  stInfo : BitVec 8
  deriving DecidableEq

/-- `STT_FUNC`. -/
def sttFunc : BitVec 8 := 2

/-- Why `cmd_bt` does not go on: an assertion fails in a read, or it is undefined. -/
inductive Stop where
  | assertion | undefined
  deriving DecidableEq

/-- `PartOfStackFrame`. -/
structure PartOfStackFrame where
  prevEbp : Word
  retAddr : Word
  args : List Word
  deriving DecidableEq

/-- A line that is printed; `main` has no arguments. -/
structure Line where
  number : ℕ
  retAddr : Word
  name : List Char
  args : Option (List Word)
  deriving DecidableEq

namespace Elf32Sym

def IsFunc (f : Elf32Sym) : Prop := f.stInfo &&& 0xf = sttFunc

instance (f : Elf32Sym) : Decidable f.IsFunc := inferInstanceAs (Decidable (_ = _))

/-- The test of `cmd_bt`. -/
def Matches (a : Word) (f : Elf32Sym) : Prop := f.stValue ≤ a ∧ f.stValue + f.stSize ≥ a ∧ f.IsFunc

instance (a : Word) (f : Elf32Sym) : Decidable (f.Matches a) := inferInstanceAs (Decidable (_ ∧ _))

end Elf32Sym

section Command

variable (read : Word → Option Word) (symtab : List Elf32Sym)

/-- `swaddr_read(addr, 4, 3)`. -/
def readWord (addr : Word) : Except Stop Word :=
  match read addr with
  | some v => .ok v
  | none => .error .assertion

/-- `read_ebp`. -/
def readEbp (addr : Word) : Except Stop PartOfStackFrame := do
  let prevEbp ← readWord read addr
  let retAddr ← readWord read (addr + 4)
  let a₀ ← readWord read (addr + 8)
  let a₁ ← readWord read (addr + 8 + 4)
  let a₂ ← readWord read (addr + 8 + 8)
  let a₃ ← readWord read (addr + 8 + 12)
  return ⟨prevEbp, retAddr, [a₀, a₁, a₂, a₃]⟩

/-- The search, and the text in `tmp` after it; `none` is a `tmp` that nothing has been put into. -/
def search (retAddr : Word) (tmp : Option (List Char)) : Except Stop (Option (List Char)) :=
  match symtab.find? fun f => f.Matches retAddr with
  | none => .ok tmp
  | some f => if f.stName.length < 32 then .ok (some f.stName) else .error .undefined

/-- The variables of `cmd_bt`, and what it has printed. -/
structure BtState where
  addr : Word
  retAddr : Word
  tmp : Option (List Char)
  j : ℕ
  out : List Line

/-- What is printed between the parentheses. -/
def shownArgs (name : List Char) (now : PartOfStackFrame) : Option (List Word) :=
  if name = ['m', 'a', 'i', 'n'] then none else some now.args

/-- The body of the loop. -/
def btFrame (s : BtState) : Except Stop BtState := do
  let tmp ← search symtab s.retAddr s.tmp
  match tmp with
  | none => .error .undefined
  | some name =>
    let now ← readEbp read s.addr
    return ⟨now.prevEbp, now.retAddr, tmp, s.j + 1, s.out ++ [⟨s.j, s.retAddr, name, shownArgs name now⟩]⟩

/-- `while (addr > 0)`; `none` if the loop has not ended by then. -/
def btLoop : ℕ → BtState → Except Stop (Option (List Line))
  | 0, _ => .ok none
  | n + 1, s =>
    if s.addr > 0 then
      match btFrame read symtab s with
      | .ok s' => btLoop n s'
      | .error e => .error e
    else .ok (some s.out)

/-- `cmd_bt`, with what it prints. -/
def cmdBt (n : ℕ) (ebp eip : Word) : Except Stop (Option (List Line)) :=
  btLoop read symtab n ⟨ebp, eip, none, 0, []⟩

end Command

/-! ### What is asked for -/

/-- The frames from `addr` on, each with its code address. -/
inductive Chain (read : Word → Option Word) : Word → Word → List (Word × PartOfStackFrame) → Prop where
  | nil (a : Word) : Chain read 0 a []
  | cons {addr a : Word} {now : PartOfStackFrame} {l : List (Word × PartOfStackFrame)} :
      addr ≠ 0 → readEbp read addr = .ok now → Chain read now.prevEbp now.retAddr l →
      Chain read addr a ((a, now) :: l)

/-- The address is one of the function. -/
def Elf32Sym.Contains (f : Elf32Sym) (a : Word) : Prop :=
  f.IsFunc ∧ f.stValue.toNat ≤ a.toNat ∧ a.toNat < f.stValue.toNat + f.stSize.toNat

instance (f : Elf32Sym) (a : Word) : Decidable (f.Contains a) := inferInstanceAs (Decidable (_ ∧ _))

/-- No address is one of two functions. -/
def DisjointFuncs (symtab : List Elf32Sym) : Prop :=
  symtab.Pairwise fun f g => ∀ a, ¬(f.Contains a ∧ g.Contains a)

/-- A line for a frame: its code address, and the name of the function that it is
in; the name of no function at all where it is in none. -/
structure Right (symtab : List Elf32Sym) (frame : Word × PartOfStackFrame) (line : Line) : Prop where
  retAddr : line.retAddr = frame.1
  inside : ∀ f ∈ symtab, f.Contains frame.1 → line.name = f.stName
  outside : (∀ f ∈ symtab, ¬f.Contains frame.1) → ∀ f ∈ symtab, f.IsFunc → line.name ≠ f.stName

/-- `cmd_bt` ends, with a right line for every frame of the chain. -/
def Backtraces (read : Word → Option Word) (symtab : List Elf32Sym) (ebp eip : Word) : Prop :=
  ∃ l out, Chain read ebp eip l ∧ (∃ n, cmdBt read symtab n ebp eip = .ok (some out)) ∧
    List.Forall₂ (Right symtab) l out

/-! ### When it is met -/

/-- The entry of the last of the addresses that has one; the last comes first. -/
def latest (symtab : List Elf32Sym) (as : List Word) : Option Elf32Sym :=
  as.findSome? fun a => symtab.find? fun f => f.Matches a

/-- The code address is in a function, and the entry that is taken, of this
address or else of the last one before it that has one, has the same name, which fits into `tmp`. -/
def Attributed (symtab : List Elf32Sym) (before : List Word) (a : Word) : Prop :=
  ∃ f ∈ symtab, f.Contains a ∧ ∃ g, latest symtab (a :: before) = some g ∧ g.stName = f.stName ∧
    g.stName.length < 32

/-- Each frame in turn. -/
def AllAttributed (symtab : List Elf32Sym) : List Word → List (Word × PartOfStackFrame) → Prop
  | _, [] => True
  | before, (a, _) :: l => Attributed symtab before a ∧ AllAttributed symtab (a :: before) l

/-! ### The run -/

section Run

variable {read : Word → Option Word} {symtab : List Elf32Sym}

/-- The lines for the frames `l`, the first with number `j`, when `tmp` holds this text. -/
inductive Printed (symtab : List Elf32Sym) :
    Option (List Char) → ℕ → List (Word × PartOfStackFrame) → List Line → Prop where
  | nil (tmp : Option (List Char)) (j : ℕ) : Printed symtab tmp j [] []
  | cons {tmp : Option (List Char)} {j : ℕ} {a : Word} {now : PartOfStackFrame} {name : List Char}
      {l : List (Word × PartOfStackFrame)} {out : List Line} :
      search symtab a tmp = .ok (some name) → Printed symtab (some name) (j + 1) l out →
      Printed symtab tmp j ((a, now) :: l) (⟨j, a, name, shownArgs name now⟩ :: out)

/-- A frame is printed if the search leaves a name in `tmp` and the frame can be read. -/
theorem btFrame_iff {s s' : BtState} :
    btFrame read symtab s = .ok s' ↔ ∃ name now, search symtab s.retAddr s.tmp = .ok (some name) ∧
      readEbp read s.addr = .ok now ∧
      s' = ⟨now.prevEbp, now.retAddr, some name, s.j + 1,
        s.out ++ [⟨s.j, s.retAddr, name, shownArgs name now⟩]⟩ := by
  unfold btFrame
  cases hsearch : search symtab s.retAddr s.tmp with
  | error e => simp [bind, Except.bind]
  | ok tmp =>
    cases tmp with
    | none => simp [bind, Except.bind]
    | some name =>
      cases hread : readEbp read s.addr with
      | error e => simp [bind, Except.bind]
      | ok now => simp [bind, Except.bind, pure, Except.pure, eq_comm]

/-- **The run.** The loop ends with this output if the chain ends, and the output is
the lines for its frames. -/
theorem btLoop_iff {s : BtState} {out : List Line} :
    (∃ n, btLoop read symtab n s = .ok (some out)) ↔
      ∃ l rest, Chain read s.addr s.retAddr l ∧ Printed symtab s.tmp s.j l rest ∧ out = s.out ++ rest := by
  constructor
  · rintro ⟨n, hrun⟩
    induction n generalizing s with
    | zero => simp [btLoop] at hrun
    | succ n ih =>
      rw [btLoop] at hrun
      by_cases haddr : s.addr > 0
      · rw [if_pos haddr] at hrun
        cases hframe : btFrame read symtab s with
        | error e => simp [hframe] at hrun
        | ok s' =>
          simp only [hframe] at hrun
          obtain ⟨name, now, hsearch, hread, rfl⟩ := btFrame_iff.mp hframe
          obtain ⟨l, rest, hchain, hlines, rfl⟩ := ih hrun
          have hne : s.addr ≠ 0 := by bv_omega
          exact ⟨_, _, .cons hne hread hchain, .cons hsearch hlines, by simp⟩
      · rw [if_neg haddr] at hrun
        have h0 : s.addr = 0 := by bv_omega
        refine ⟨[], [], h0 ▸ .nil _, .nil _ _, ?_⟩
        simpa using hrun.symm
  · rintro ⟨l, rest, hchain, hlines, rfl⟩
    obtain ⟨addr, a, tmp, j, out₀⟩ := s
    dsimp only at hchain hlines ⊢
    induction hchain generalizing tmp j out₀ rest with
    | nil a =>
      cases hlines
      exact ⟨1, by simp [btLoop]⟩
    | cons hne hread _ ih =>
      rename_i addr a now l _
      cases hlines with
      | cons hsearch hlines =>
        rename_i name out
        obtain ⟨n, hrun⟩ := ih _ _ _ (out₀ ++ [⟨j, a, name, shownArgs name now⟩]) hlines
        refine ⟨n + 1, ?_⟩
        have hframe : btFrame read symtab ⟨addr, a, tmp, j, out₀⟩ = .ok _ :=
          btFrame_iff.mpr ⟨name, now, hsearch, hread, rfl⟩
        rw [btLoop, if_pos (show addr > 0 by bv_omega), hframe]
        simpa using hrun

/-- There is one chain from an address. -/
theorem Chain.unique {addr a : Word} {l l' : List (Word × PartOfStackFrame)} (h : Chain read addr a l)
    (h' : Chain read addr a l') : l = l' := by
  induction h generalizing l' with
  | nil a =>
    cases h' with
    | nil => rfl
    | cons hne => exact (hne rfl).elim
  | cons hne hread _ ih =>
    cases h' with
    | nil => exact (hne rfl).elim
    | cons _ hread' hl' =>
      obtain rfl := Except.ok.inj (hread.symm.trans hread')
      rw [ih hl']

end Run

/-! ### The entries that are taken -/

section Names

variable {symtab : List Elf32Sym} {before : List Word} {a : Word} {f g : Elf32Sym}

/-- The test, in numbers: a range that does not fit into 32 bits has no match, and
the end of the others is included. -/
theorem Elf32Sym.matches_iff : f.Matches a ↔ f.IsFunc ∧ f.stValue.toNat + f.stSize.toNat < 2 ^ 32 ∧
    f.stValue.toNat ≤ a.toNat ∧ a.toNat ≤ f.stValue.toNat + f.stSize.toNat := by
  unfold Matches
  constructor
  · rintro ⟨hlo, hhi, hfunc⟩
    exact ⟨hfunc, by bv_omega, by bv_omega, by bv_omega⟩
  · rintro ⟨hfunc, hfit, hlo, hhi⟩
    exact ⟨by bv_omega, by bv_omega, hfunc⟩

/-- An entry that is taken is a function of the table. -/
theorem latest_mem (h : latest symtab before = some g) : g ∈ symtab ∧ g.IsFunc := by
  obtain ⟨a, -, hfind⟩ := List.exists_of_findSome?_eq_some h
  have hmatch := List.find?_some hfind
  exact ⟨List.mem_of_find?_eq_some hfind, (of_decide_eq_true hmatch).2.2⟩

/-- **The search.** Where a function contains the address and its range fits into 32
bits, what is taken contains the address as well, or ends there and stands before it. -/
theorem latest_of_contains {pre post : List Elf32Sym} (hfind : symtab = pre ++ f :: post)
    (hf : f.Contains a) (hfit : f.stValue.toNat + f.stSize.toNat < 2 ^ 32) :
    ∃ g, latest symtab (a :: before) = some g ∧
      (g.Contains a ∨ g ∈ pre ∧ g.stValue.toNat + g.stSize.toNat = a.toNat) := by
  have hmatch : f.Matches a := Elf32Sym.matches_iff.mpr ⟨hf.1, hfit, hf.2.1, hf.2.2.le⟩
  have htake : (symtab.find? fun f => f.Matches a) = (pre.find? fun f => f.Matches a).or (some f) := by
    rw [hfind, List.find?_append, List.find?_cons_of_pos (by simpa using hmatch)]
  cases hpre : pre.find? fun f => f.Matches a with
  | none =>
    rw [hpre] at htake
    exact ⟨f, by simp [latest, htake], .inl hf⟩
  | some g =>
    rw [hpre] at htake
    have hg : g.Matches a := by simpa using List.find?_some hpre
    obtain ⟨hfunc, -, hlo, hhi⟩ := Elf32Sym.matches_iff.mp hg
    refine ⟨g, by simp [latest, htake], ?_⟩
    rcases hhi.lt_or_eq with hlt | heq
    · exact .inl ⟨hfunc, hlo, hlt⟩
    · exact .inr ⟨List.mem_of_find?_eq_some hpre, heq.symm⟩

/-- What the search leaves in `tmp`. -/
theorem search_iff {name : List Char}
    (hbefore : ∀ g, latest symtab before = some g → g.stName.length < 32) :
    search symtab a ((latest symtab before).map (·.stName)) = .ok (some name) ↔
      ∃ g, latest symtab (a :: before) = some g ∧ g.stName.length < 32 ∧ g.stName = name := by
  have hcons : latest symtab (a :: before) =
      (symtab.find? fun f => f.Matches a).or (latest symtab before) := by
    unfold latest
    rw [List.findSome?_cons]
    cases symtab.find? fun f => f.Matches a <;> rfl
  rw [hcons]
  unfold search
  cases hfind : symtab.find? fun f => f.Matches a with
  | none =>
    cases hlatest : latest symtab before with
    | none => simp
    | some g => simpa using fun _ => hbefore g hlatest
  | some f => by_cases hlen : f.stName.length < 32 <;> simp [hlen]

/-- Two functions that contain an address are one. -/
theorem DisjointFuncs.unique (h : DisjointFuncs symtab) (hf : f ∈ symtab) (hg : g ∈ symtab)
    (hfa : f.Contains a) (hga : g.Contains a) : f = g := by
  have hone : symtab.Pairwise fun f g => f.Contains a → g.Contains a → f = g :=
    h.imp fun h hf hg => (h a ⟨hf, hg⟩).elim
  have hother : symtab.Pairwise (flip fun f g => f.Contains a → g.Contains a → f = g) :=
    h.imp fun h hf hg => (h a ⟨hg, hf⟩).elim
  exact List.Pairwise.forall_of_forall_of_flip (fun _ _ _ _ => rfl) hone hother hf hg hfa hga

/-- A line with the name of a function of the table is right if the frame is in one of that name. -/
theorem right_iff (hdis : DisjointFuncs symtab) (hg : g ∈ symtab ∧ g.IsFunc) (now : PartOfStackFrame) (j : ℕ)
    (args : Option (List Word)) :
    Right symtab (a, now) ⟨j, a, g.stName, args⟩ ↔ ∃ f ∈ symtab, f.Contains a ∧ g.stName = f.stName := by
  constructor
  · intro hright
    by_contra hnone
    refine hright.outside (fun f hf hfa => hnone ⟨f, hf, hfa, hright.inside f hf hfa⟩) g hg.1 hg.2 rfl
  · rintro ⟨f, hf, hfa, hname⟩
    refine ⟨rfl, fun f' hf' hfa' => ?_, fun hout => (hout f hf hfa).elim⟩
    rw [hdis.unique hf' hf hfa' hfa]
    exact hname

/-- What a frame needs, by the line that it gets. -/
theorem attributed_iff (hdis : DisjointFuncs symtab) (now : PartOfStackFrame) (j : ℕ)
    (args : Option (List Word)) :
    Attributed symtab before a ↔ ∃ g, latest symtab (a :: before) = some g ∧ g.stName.length < 32 ∧
      Right symtab (a, now) ⟨j, a, g.stName, args⟩ := by
  constructor
  · rintro ⟨f, hf, hfa, g, hg, hname, hlen⟩
    exact ⟨g, hg, hlen, (right_iff hdis (latest_mem hg) now j args).mpr ⟨f, hf, hfa, hname⟩⟩
  · rintro ⟨g, hg, hlen, hright⟩
    obtain ⟨f, hf, hfa, hname⟩ := (right_iff hdis (latest_mem hg) now j args).mp hright
    exact ⟨f, hf, hfa, g, hg, hname, hlen⟩

/-- **The lines.** They are all printed and right if every frame has what it needs. -/
theorem printed_right_iff (hdis : DisjointFuncs symtab) (before : List Word) (j : ℕ)
    (l : List (Word × PartOfStackFrame))
    (hbefore : ∀ g, latest symtab before = some g → g.stName.length < 32) :
    (∃ out, Printed symtab ((latest symtab before).map (·.stName)) j l out ∧
      List.Forall₂ (Right symtab) l out) ↔ AllAttributed symtab before l := by
  induction l generalizing before j with
  | nil => exact ⟨fun _ => trivial, fun _ => ⟨[], .nil _ _, .nil⟩⟩
  | cons frame l ih =>
    obtain ⟨a, now⟩ := frame
    -- after a frame `tmp` holds the name of the entry that was taken for it
    have hnext : ∀ g, latest symtab (a :: before) = some g → g.stName.length < 32 →
        ((∃ out, Printed symtab (some g.stName) (j + 1) l out ∧ List.Forall₂ (Right symtab) l out) ↔
          AllAttributed symtab (a :: before) l) := by
      intro g hg hlen
      have hnow := ih (a :: before) (j + 1) fun g' hg' => by
        rw [hg] at hg'
        rwa [← Option.some.inj hg']
      rwa [hg] at hnow
    constructor
    · rintro ⟨out, hprinted, hright⟩
      cases hprinted with
      | cons hsearch hprinted =>
        cases hright with
        | cons hline hright =>
          obtain ⟨g, hg, hlen, rfl⟩ := (search_iff hbefore).mp hsearch
          exact ⟨(attributed_iff hdis now _ _).mpr ⟨g, hg, hlen, hline⟩,
            (hnext g hg hlen).mp ⟨_, hprinted, hright⟩⟩
    · rintro ⟨hattr, hall⟩
      obtain ⟨f, hf, hfa, g, hg, hname, hlen⟩ := hattr
      obtain ⟨out, hprinted, hright⟩ := (hnext g hg hlen).mpr hall
      have hline := (right_iff hdis (latest_mem hg) now j (shownArgs g.stName now)).mpr ⟨f, hf, hfa, hname⟩
      exact ⟨_, .cons ((search_iff hbefore).mpr ⟨g, hg, hlen, rfl⟩) hprinted, .cons hline hright⟩

end Names

/-- **The backtrace.** It is as it should be if the chain ends after frames that can
all be read, and every frame has what it needs. -/
theorem cmdBt_iff (read : Word → Option Word) (symtab : List Elf32Sym) (ebp eip : Word)
    (hdis : DisjointFuncs symtab) :
    Backtraces read symtab ebp eip ↔ ∃ l, Chain read ebp eip l ∧ AllAttributed symtab [] l := by
  have hlines := fun l => printed_right_iff hdis [] 0 l fun g hg => nomatch hg
  constructor
  · rintro ⟨l, out, hchain, hrun, hright⟩
    obtain ⟨l', rest, hchain', hprinted, hout⟩ := btLoop_iff.mp hrun
    obtain rfl := hchain.unique hchain'
    obtain rfl : out = rest := hout
    exact ⟨l, hchain, (hlines l).mp ⟨out, hprinted, hright⟩⟩
  · rintro ⟨l, hchain, hall⟩
    obtain ⟨out, hprinted, hright⟩ := (hlines l).mpr hall
    exact ⟨l, out, hchain, btLoop_iff.mpr ⟨l, out, hchain, hprinted, rfl⟩, hright⟩

/-! ### Two functions, one behind the other -/

/-- `f` from `0x100` to `0x10f`, and `main` from `0x110` to `0x12f`. -/
def sampleSymtab : List Elf32Sym :=
  [⟨['f'], 0x100, 0x10, 2⟩, ⟨['m', 'a', 'i', 'n'], 0x110, 0x20, 2⟩]

/-- A frame at `0x1000`, called from `0x118`, and the outermost one at `0x2000`. -/
def sampleRead (a : Word) : Option Word :=
  if a = 0x1000 then some 0x2000 else if a = 0x1004 then some 0x118 else some 0

theorem sampleSymtab_disjoint : DisjointFuncs sampleSymtab := by
  refine .cons (fun g hg a hc => ?_) (.cons (fun g hg => (List.not_mem_nil hg).elim) .nil)
  obtain rfl := List.mem_singleton.mp hg
  obtain ⟨⟨-, -, hlt⟩, -, hle, -⟩ := hc
  have hend : (0x100#32).toNat + (0x10#32).toNat = (0x110#32).toNat := rfl
  exact absurd hlt (Nat.not_lt.mpr (hend ▸ hle))

/-- In the middle of `f`. -/
theorem cmdBt_f : Backtraces sampleRead sampleSymtab 0x1000 0x104 := by
  refine (cmdBt_iff _ _ _ _ sampleSymtab_disjoint).mpr ⟨[(0x104, ⟨0x2000, 0x118, [0, 0, 0, 0]⟩),
    (0x118, ⟨0, 0, [0, 0, 0, 0]⟩)], .cons (by decide) rfl (.cons (by decide) rfl (.nil _)), ?_, ?_, trivial⟩
  · exact ⟨⟨['f'], 0x100, 0x10, 2⟩, by decide, by decide, ⟨['f'], 0x100, 0x10, 2⟩, by decide⟩
  · exact ⟨⟨['m', 'a', 'i', 'n'], 0x110, 0x20, 2⟩, by decide, by decide, ⟨['m', 'a', 'i', 'n'], 0x110, 0x20, 2⟩,
      by decide⟩

/-- At the first instruction of `main` the frame is said to be in `f`. -/
theorem cmdBt_main_fails : ¬∀ read symtab ebp eip, DisjointFuncs symtab → Backtraces read symtab ebp eip := by
  intro hall
  obtain ⟨l, out, hchain, ⟨n, hrun⟩, hright⟩ := hall sampleRead sampleSymtab 0x2000 0x110 sampleSymtab_disjoint
  have hend : ∀ n, cmdBt sampleRead sampleSymtab (n + 2) 0x2000 0x110 =
      .ok (some [⟨0, 0x110, ['f'], some [0, 0, 0, 0]⟩]) := fun _ => rfl
  match n, hrun with
  | 0, hrun => nomatch hrun
  | 1, hrun => nomatch hrun
  | n + 2, hrun =>
    rw [hend] at hrun
    obtain rfl := Option.some.inj (Except.ok.inj hrun)
    cases hright with
    | cons hline hrest =>
      cases hchain with
      | cons _ hread _ =>
        have hmain : Elf32Sym.Contains ⟨['m', 'a', 'i', 'n'], 0x110, 0x20, 2⟩ 0x110 := by decide
        exact absurd (hline.inside _ (by decide) hmain) (by decide)

end Debug

end Nemu
