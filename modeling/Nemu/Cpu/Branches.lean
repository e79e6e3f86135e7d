/-
# Compare and branch

After a `cmp` the instructions with a condition decide as the relation that the
condition stands for: `jcc` goes to its target or on to the next instruction, `setcc`
writes 1 or 0, and `cmovcc` moves or does not. Two things are otherwise: the carry of a
16-bit `cmp` with a negative byte, and the opcode of `cmovge`, which is that of `cmovle`
in the table.

Key definitions: `CondOp`, `CondOp.Takes`, `Misjudged`.
Key theorems: `CondOp.takes_test`, `cmp_cond_iff`.
-/
import Nemu.Cpu.FlagFrame
import Mathlib.Data.Fintype.Basic
import Mathlib.Tactic.FinCases

namespace Nemu

open Bytes Cmd Instr

section Branches

variable {P : Type} [Bus P]

/-! ### The instructions with a condition -/

/-- The condition with this nibble. -/
def ccOf (k : Fin 16) : Cc :=
  [.o, .no, .b, .ae, .e, .ne, .be, .a, .s, .ns, .p, .np, .l, .ge, .le, .g].get k

/-- The instructions whose opcode ends in a condition nibble: `jcc` with an
8-bit and with a 32-bit displacement, `setcc`, and `cmovcc`. -/
inductive CondOp where
  | jccB | jccV | setcc | cmov
  deriving DecidableEq

/-- The opcode without the nibble; after `0x0f` but for the first one. -/
def CondOp.opcode : CondOp → ℕ
  | .jccB => 0x70
  | .jccV => 0x80
  | .setcc => 0x90
  | .cmov => 0x40

/-- `cmovcc` is implemented for `e`, `ge` and `le` only. -/
def CondOp.Implemented (op : CondOp) (k : Fin 16) : Prop := op = .cmov → k = 4 ∨ k = 13 ∨ k = 14

/-- The instruction at `eip` is this one: its opcode is fetched, which leads to `s₀`. -/
def CondOp.Fetched (op : CondOp) (k : Fin 16) (eip : Word) (s s₀ : Machine P) : Prop :=
  ∃ opcode s₁, instrFetch eip 1 s = .ok opcode s₁ ∧
    if op = .jccB then opcode.toNat = 0x70 + k.val ∧ s₀ = s₁.setOpcode opcode
    else opcode.toNat = 0x0f ∧ ∃ opcode' s₂, instrFetch (eip + 1) 1 (s₁.setOpcode opcode) = .ok opcode' s₂ ∧
      opcode'.toNat = op.opcode + k.val ∧ s₀ = s₂.setOpcode (opcode' ||| 0x100)

/-- When the length is added, `eip` is the target, if the branch is taken. -/
def Machine.branch (s : Machine P) (taken : Bool) (target len : Word) : Machine P :=
  if taken then s.setEip (target - len) else s

omit [Bus P] in
theorem Machine.branch_eip (s : Machine P) (taken : Bool) (target len : Word) :
    (s.branch taken target len).eip + len = if taken then target else s.eip + len := by
  cases taken with
  | false => rfl
  | true => exact BitVec.sub_add_cancel target len

/-- What the instruction does with this decision, from where its opcode was fetched: the
value that it returns and the machine after it. -/
def CondOp.Takes (op : CondOp) (b : Bool) (eip : Word) (s₀ : Machine P) (o : Outcome (Machine P) Word) : Prop :=
  match op with
  | .jccB => ∀ target s₁, nextAddr .b eip s₀ = .ok target s₁ → o = .ok 2 (s₁.branch b target 2)
  | .jccV => ∀ target s₁, nextAddr s₀.opWidth (eip + 1) s₀ = .ok target s₁ →
      o = .ok (s₀.opWidth.len + 2) (s₁.branch b target (s₀.opWidth.len + 2))
  | .setcc => ∀ len s₁, decodeR2rm .b (eip + 2) s₀ = .ok len s₁ →
      o = (writeOperand .b .dest (if b then 1 else 0) >>= fun _ => pure (len + 2)) s₁
  | .cmov => ∀ len s₁, decodeRm2r s₀.opWidth (eip + 2) s₀ = .ok len s₁ →
      o = if b then (writeOperand s₀.opWidth .dest (s₁.val .src) >>= fun _ => pure (len + 2)) s₁
        else .ok (len + 2) s₁

/-- What the instruction tests. -/
def CondOp.tests (op : CondOp) (k : Fin 16) : Cc := if op = .cmov ∧ k = 13 then .le else ccOf k

/-- The opcodes of the instructions with a condition. -/
theorem condOp_tables (exec : Helper P) (fuel : ℕ) (k : Fin 16) :
    entry (opcodeTable exec fuel) (0x70 + k.val) = jcc .b (ccOf k) ∧
    entry (P := P) opcodeTable2 (0x80 + k.val) = helperV (jcc · (ccOf k)) ∧
    entry (P := P) opcodeTable2 (0x90 + k.val) = setcc (ccOf k) := by
  fin_cases k <;> exact ⟨rfl, rfl, rfl⟩

omit [Bus P] in
/-- `check_cc_le` is the test of `jcc_le`. -/
theorem checkCcLe_eq (m : Machine P) : checkCcLe m = Cc.le.test m := by
  simp only [checkCcLe, Cc.test]
  rw [Bool.or_comm]

theorem cmov_tables {k : Fin 16} (hk : CondOp.cmov.Implemented k) : ∃ check : Machine P → Bool,
    (∀ m, check m = (CondOp.cmov.tests k).test m) ∧
      entry (P := P) opcodeTable2 (0x40 + k.val) = helperV (cmov · check) := by
  rcases hk rfl with rfl | rfl | rfl
  · exact ⟨checkCcE, fun _ => rfl, rfl⟩
  · exact ⟨checkCcLe, checkCcLe_eq, rfl⟩
  · exact ⟨checkCcLe, checkCcLe_eq, rfl⟩

/-! ### What they do -/

omit [Bus P] in
theorem test_congr {m m' : Machine P} (h : m'.cpu.eflags = m.cpu.eflags) (c : Cc) : c.test m' = c.test m := by
  have hflag : ∀ f, m'.flag f = m.flag f := fun f => congrArg (fun e : Word => e.getLsbD f.bit) h
  cases c <;> simp only [Cc.test, hflag]

omit [Bus P] in
/-- A decoder does not change the flags. -/
theorem eflags_of_ok {α : Type} {c : Cmd (Machine P) α} {a : α} {m m' : Machine P}
    [hc : Keeps (OnFlags (· = m.cpu.eflags)) c] (h : c m = .ok a m') : m'.cpu.eflags = m.cpu.eflags := by
  have hends := hc.ends m rfl
  rw [h] at hends
  exact hends

/-- `exec` of an opcode of one byte. -/
theorem exec_fetched {eip opcode : Word} {fuel : ℕ} {s s₁ : Machine P} (hf : instrFetch eip 1 s = .ok opcode s₁) :
    exec (fuel + 1) eip s = entry (opcodeTable (exec fuel) fuel) opcode.toNat eip (s₁.setOpcode opcode) := by
  change (instrFetch eip 1 >>= fun opcode => write (·.setOpcode opcode) >>= fun _ =>
    entry (opcodeTable (exec fuel) fuel) opcode.toNat eip) s = _
  rw [bind_ok hf, write_bind_run]

/-- `exec` of an opcode of two bytes. -/
theorem exec_fetched2 {eip opcode opcode' : Word} {fuel : ℕ} {s s₁ s₂ : Machine P} (hf : instrFetch eip 1 s = .ok opcode s₁)
    (hesc : opcode.toNat = 0x0f) (hf' : instrFetch (eip + 1) 1 (s₁.setOpcode opcode) = .ok opcode' s₂) :
    exec (fuel + 1) eip s = (entry opcodeTable2 opcode'.toNat (eip + 1) >>= fun len => pure (len + 1))
      (s₂.setOpcode (opcode' ||| 0x100)) := by
  rw [exec_fetched hf, hesc]
  change twoByteEsc eip (s₁.setOpcode opcode) = _
  unfold twoByteEsc
  rw [bind_ok hf', write_bind_run]

/-- `jcc` goes to its target, or on. -/
theorem jcc_run {d : Width} {c : Cc} {eip target : Word} {s s₁ : Machine P} (h : nextAddr d eip s = .ok target s₁) :
    jcc d c eip s = .ok (d.len + 1)
      (s₁.branch (c.test s) target (d.len + 1 + if d = .b then 0 else 1)) := by
  have hflags : s₁.cpu.eflags = s.cpu.eflags := eflags_of_ok h
  have hsub : target - (1 + d.len) - (if d = .b then 0 else 1) = target - (d.len + 1 + if d = .b then 0 else 1) := by
    rw [BitVec.add_comm 1, BitVec.sub_sub]
  unfold jcc
  rw [bind_ok h, read_bind_run, test_congr hflags, hsub]
  cases c.test s <;> rfl

theorem setcc_run {c : Cc} {eip len : Word} {s s₁ : Machine P} (h : decodeR2rm .b (eip + 1) s = .ok len s₁) :
    setcc c eip s = (writeOperand .b .dest (if c.test s then 1 else 0) >>= fun _ => pure (1 + len)) s₁ := by
  have hflags : s₁.cpu.eflags = s.cpu.eflags := eflags_of_ok h
  unfold setcc
  rw [bind_ok h, read_bind_run, test_congr hflags]

theorem cmov_run {d : Width} {c : Cc} {check : Machine P → Bool} (hcheck : ∀ m, check m = c.test m) {eip len : Word}
    {s s₁ : Machine P} (h : decodeRm2r d (eip + 1) s = .ok len s₁) :
    cmov d check eip s = if c.test s then (writeOperand d .dest (s₁.val .src) >>= fun _ => pure (len + 1)) s₁
      else .ok (len + 1) s₁ := by
  have hflags : s₁.cpu.eflags = s.cpu.eflags := eflags_of_ok h
  unfold cmov
  rw [bind_ok h, read_bind_run, hcheck, test_congr hflags, read_bind_run]
  cases c.test s <;> rfl

omit [Bus P] in
theorem opWidth_ne_b (m : Machine P) : m.opWidth ≠ .b := by
  unfold Machine.opWidth
  split <;> exact nofun

/-- **What the instructions with a condition do**: they decide by the flags. -/
theorem CondOp.takes_test {op : CondOp} {k : Fin 16} {eip : Word} {fuel : ℕ} {s s₀ : Machine P}
    (hk : op.Implemented k) (hf : op.Fetched k eip s s₀) :
    op.Takes ((op.tests k).test s₀) eip s₀ (exec (fuel + 1) eip s) := by
  obtain ⟨opcode, s₁, hfetch, hf⟩ := hf
  cases op with
  | jccB =>
    obtain ⟨hop, rfl⟩ := hf
    intro target t htarget
    rw [exec_fetched hfetch, hop, (condOp_tables _ _ k).1, jcc_run htarget]
    rfl
  | jccV =>
    obtain ⟨hesc, opcode', s₂, hfetch', hop, rfl⟩ := hf
    intro target t htarget
    rw [exec_fetched2 hfetch hesc hfetch', hop, CondOp.opcode, (condOp_tables inv 0 k).2.1, bind_run, helperV_run,
      jcc_run htarget, if_neg (opWidth_ne_b _)]
    have hlen : ∀ n : Word, n + 1 + 1 = n + 2 := fun n => by rw [BitVec.add_assoc]; rfl
    rw [hlen]
    exact congrArg (Outcome.ok · _) (hlen _)
  | setcc =>
    obtain ⟨hesc, opcode', s₂, hfetch', hop, rfl⟩ := hf
    intro len t hdec
    have hdec' : decodeR2rm .b (eip + 1 + 1) (s₂.setOpcode (opcode' ||| 0x100)) = .ok len t := by
      rw [BitVec.add_assoc]
      exact hdec
    rw [exec_fetched2 hfetch hesc hfetch', hop, CondOp.opcode, (condOp_tables inv 0 k).2.2, bind_run,
      setcc_run hdec', ← bind_run, bind_assoc_cmd]
    have hlen : 1 + len + 1 = len + 2 := by
      rw [BitVec.add_comm 1, BitVec.add_assoc]
      rfl
    simp only [pure_bind_cmd, hlen]
    rfl
  | cmov =>
    obtain ⟨hesc, opcode', s₂, hfetch', hop, rfl⟩ := hf
    obtain ⟨check, hcheck, hentry⟩ := cmov_tables (P := P) hk
    intro len t hdec
    have hdec' : decodeRm2r (s₂.setOpcode (opcode' ||| 0x100)).opWidth (eip + 1 + 1)
        (s₂.setOpcode (opcode' ||| 0x100)) = .ok len t := by
      rw [BitVec.add_assoc]
      exact hdec
    rw [exec_fetched2 hfetch hesc hfetch', hop, CondOp.opcode, hentry, bind_run, helperV_run,
      cmov_run hcheck hdec']
    have hlen : len + 1 + 1 = len + 2 := by
      rw [BitVec.add_assoc]
      rfl
    cases (CondOp.cmov.tests k).test (s₂.setOpcode (opcode' ||| 0x100)) with
    | false => exact congrArg (Outcome.ok · t) hlen
    | true =>
      simp only [if_true, ← bind_run, bind_assoc_cmd, pure_bind_cmd, hlen]

/-! ### After a comparison -/

/-- Where a condition is not the relation: after the 16-bit `cmp` with a negative
byte, whose carry is always set, and in the opcode of `cmovge`. -/
def Misjudged (form : CmpForm) (d : Width) (op : CondOp) (k : Fin 16) (x y : BitVec d.bits) : Prop :=
  (form = .si2rm ∧ d = .w ∧ y.msb = true ∧ y.ule x = true ∧
    (k = 2 ∨ k = 3 ∨ (k = 6 ∨ k = 7) ∧ x ≠ y)) ∨
  (op = .cmov ∧ k = 13 ∧ x ≠ y)

/-- Less-or-equal both ways is equality. -/
theorem sle_eq_sle_iff {n : ℕ} (x y : BitVec n) : x.sle y = y.sle x ↔ x = y := by
  constructor
  · intro h
    rw [BitVec.sle_eq_decide, BitVec.sle_eq_decide, decide_eq_decide] at h
    have heq : x.toInt = y.toInt := by omega
    exact BitVec.eq_of_toInt_eq heq
  · rintro rfl
    rfl

omit [Bus P] in
/-- What an instruction with a condition tests is its relation, if and only if it is not
one of the two cases of `Misjudged`. -/
theorem tests_iff {form : CmpForm} {d : Width} {op : CondOp} {k : Fin 16} (hk : op.Implemented k) {carry : Bool}
    {x y : BitVec d.bits} {s : Machine P} (hcmp : Compared s carry x y)
    (hcarry : carry = (x.ult y || decide (form = .si2rm ∧ d = .w ∧ y.msb = true))) :
    (op.tests k).test s = (ccOf k).holds x y ↔ ¬ Misjudged form d op k x y := by
  have hne : carry ≠ x.ult y ↔ form = .si2rm ∧ d = .w ∧ y.msb = true ∧ y.ule x = true := by
    rw [hcarry, BitVec.ule_eq_not_ult y x]
    cases x.ult y <;> simp
  have hcc : ∀ k, (ccOf k = .b ∨ ccOf k = .ae ∨ (ccOf k = .be ∨ ccOf k = .a) ∧ x ≠ y) ↔
      (k = 2 ∨ k = 3 ∨ (k = 6 ∨ k = 7) ∧ x ≠ y) := by
    have h2 : ∀ k, ccOf k = .b ↔ k = 2 := by decide
    have h3 : ∀ k, ccOf k = .ae ↔ k = 3 := by decide
    have h6 : ∀ k, ccOf k = .be ↔ k = 6 := by decide
    have h7 : ∀ k, ccOf k = .a ↔ k = 7 := by decide
    intro k
    rw [h2, h3, h6, h7]
  have htest : (ccOf k).test s = (ccOf k).holds x y ↔ ¬ (form = .si2rm ∧ d = .w ∧ y.msb = true ∧
      y.ule x = true ∧ (k = 2 ∨ k = 3 ∨ (k = 6 ∨ k = 7) ∧ x ≠ y)) := by
    rw [hcmp.test_iff, hne, hcc]
    simp only [and_assoc]
  by_cases h13 : op = .cmov ∧ k = 13
  · obtain ⟨rfl, rfl⟩ := h13
    rw [CondOp.tests, if_pos ⟨rfl, rfl⟩, hcmp.test_eq .le fun h => absurd h Bool.false_ne_true,
      show (ccOf 13).holds x y = y.sle x from rfl, show Cc.le.holds x y = x.sle y from rfl, sle_eq_sle_iff, Misjudged]
    simp
  · rw [CondOp.tests, if_neg h13, htest, Misjudged]
    refine not_congr ⟨.inl, fun h => h.resolve_right fun h => h13 ⟨h.1, h.2.1⟩⟩

omit [Bus P] in
theorem Compared.congr {n : ℕ} {x y : BitVec n} {carry : Bool} {m m' : Machine P} (h : Compared m carry x y)
    (hflags : m'.cpu.eflags = m.cpu.eflags) : Compared m' carry x y := by
  have hflag : ∀ f, m'.flag f = m.flag f := fun f => congrArg (fun e : Word => e.getLsbD f.bit) hflags
  exact ⟨by rw [hflag, h.cf], by rw [hflag, h.zf], by rw [hflag, h.sf], by rw [hflag, h.of], by rw [hflag, h.pf]⟩

/-- The fetch of an opcode does not change the flags. -/
theorem CondOp.Fetched.eflags {op : CondOp} {k : Fin 16} {eip : Word} {s s₀ : Machine P} (h : op.Fetched k eip s s₀) :
    s₀.cpu.eflags = s.cpu.eflags := by
  obtain ⟨opcode, s₁, hfetch, h⟩ := h
  have h₁ : s₁.cpu.eflags = s.cpu.eflags := eflags_of_ok hfetch
  split_ifs at h
  · obtain ⟨-, rfl⟩ := h
    exact h₁
  · obtain ⟨-, opcode', s₂, hfetch', -, rfl⟩ := h
    have h₂ : s₂.cpu.eflags = (s₁.setOpcode opcode).cpu.eflags := eflags_of_ok hfetch'
    exact h₂.trans h₁

/-- **Compare and branch.** After a `cmp` of any form every instruction with a condition
that meets its flags branches, sets and moves as the relation of its condition between the
operands, if and only if it is not one of the two cases of `Misjudged`. -/
theorem cmp_cond_iff {form : CmpForm} {d : Width} (hd : form = .si2rm → d ≠ .b) {eip len : Word}
    {m m₁ : Machine P} (hdec : form.decode d (eip + 1) m = .ok len m₁) :
    ∃ m', form.helper d eip m = .ok (len + 1) m' ∧
      ∀ (op : CondOp) (k : Fin 16) (eip' : Word) (fuel : ℕ) (s s₀ : Machine P), op.Implemented k →
        s.cpu.eflags = m'.cpu.eflags → op.Fetched k eip' s s₀ →
          ∃ b, op.Takes b eip' s₀ (exec (fuel + 1) eip' s) ∧
            (b = (ccOf k).holds ((m₁.val .dest).setWidth d.bits) ((m₁.val .src).setWidth d.bits) ↔
              ¬ Misjudged form d op k ((m₁.val .dest).setWidth d.bits) ((m₁.val .src).setWidth d.bits)) := by
  have hends := form.decode_ends d (eip + 1) m
  rw [hdec] at hends
  obtain ⟨hdest, hsrc⟩ := hends
  obtain ⟨m', hrun, hcmp⟩ := doCmp_run d m₁
  refine ⟨m', ?_, fun op k eip' fuel s s₀ hk hflags hf => ?_⟩
  · unfold CmpForm.helper idex
    rw [bind_ok hdec, bind_ok hrun]
    rfl
  · have hs₀ := hcmp.congr (hf.eflags.trans hflags)
    exact ⟨_, CondOp.takes_test hk hf, tests_iff hk hs₀ (carry_eq hd hdest hsrc)⟩

end Branches

/-- `cmp $5,%ax`, in the 16-bit form, and `ja`. -/
def jaMachine : Machine FlatBus := flatMachine (fun _ => 7) [0x83, 0xf8, 0x05, 0x77, 0x02]

/-- With `ax = 7`. -/
theorem cmp_cond_iff_ja : ∃ m' s₀ b, CmpForm.si2rm.helper .w 0 jaMachine = .ok 3 m' ∧
    CondOp.jccB.Fetched 7 3 m' s₀ ∧ CondOp.jccB.Takes b 3 s₀ (exec 1 3 m') ∧
    (b = Cc.a.holds (7 : BitVec 16) 5 ↔ ¬ Misjudged .si2rm .w .jccB 7 7 5) := by
  obtain ⟨m', hrun, h⟩ := @cmp_cond_iff FlatBus _ .si2rm .w (fun _ => by decide) 0 _ jaMachine _ rfl
  have hm : m' = stateD jaMachine (CmpForm.si2rm.helper .w 0 jaMachine) := by
    rw [hrun]
    rfl
  subst hm
  have hf := ok_stateD (show value (instrFetch 3 1 (stateD jaMachine (CmpForm.si2rm.helper .w 0 jaMachine))) = some 0x77 by
    decide +kernel) jaMachine
  have hfetched : CondOp.jccB.Fetched 7 3 (stateD jaMachine (CmpForm.si2rm.helper .w 0 jaMachine)) _ :=
    ⟨_, _, hf, rfl, rfl⟩
  obtain ⟨b, htakes, hiff⟩ := h .jccB 7 3 0 _ _ nofun rfl hfetched
  exact ⟨_, _, b, hrun, hfetched, htakes, hiff⟩

/-- `cmpw $-1,%ax` with `ax = 0xffff`, and `jb`. -/
def jbMachine : Machine FlatBus := flatMachine (fun _ => 0xffff) [0x66, 0x83, 0xf8, 0xff, 0x72, 0x02]

/-- The branch is taken, although the operands are equal. -/
theorem cmp_ax_misjudged : ∃ m' m'', exec 3 0 jbMachine = .ok 4 m' ∧ exec 1 4 m' = .ok 2 m'' ∧ m''.eip + 2 = 8 ∧
    Cc.b.holds (0xffff : BitVec 16) ((0xff : Byte).signExtend 16) = false := by
  refine ⟨_, _, ok_stateD (by decide +kernel) jbMachine, ok_stateD (by decide +kernel) jbMachine, ?_, by decide⟩
  decide +kernel

end Nemu
