/-
# The negation of a double word

Compilers negate a 64-bit number with `negl low; adcl $0, high; negl high`: the
carry flag of the first `neg`, set if its operand is not zero, is added to the
high word. The code has `neg` leave the flags ("no other instructions in PA will
test" them), so what is added is the carry that was there before.

Key definitions: `AdcZeroCode`, `negIdiom`.
Key theorems: `neg_step`, `adcZero_step`, `negIdiom_sim`, `neg_double_iff`.
-/
import Nemu.Cpu.Simulate

namespace Nemu

open Bytes Cmd Instr WordMem

set_option synthInstance.maxSize 10000

/-- `negl` of a register. -/
def negCode (i : Fin 8) : List Byte := [0xf7, fields 3 3 i]

/-- The encodings of `adcl $0` to a register. -/
inductive AdcZeroCode (j : Fin 8) : List Byte → Prop
  | byte : AdcZeroCode j [0x83, fields 3 2 j, 0]
  | word : AdcZeroCode j (0x81 :: fields 3 2 j :: immediate 0)
  | eax (h : j = rEAX) : AdcZeroCode j (0x15 :: immediate 0)

/-- The processor with this in a register, at this instruction. -/
def CpuState.wrote (c : CpuState) (i : Fin 8) (v eip : Word) : CpuState :=
  { c.setReg .l i v with eip := eip }

/-- What the idiom computes from the two words and the carry before it. -/
def negHigh (hi : Word) (carry : Bool) : Word := -(hi + if carry then 1 else 0)

theorem toNat_append_word (hi lo : Word) : (hi ++ lo).toNat = hi.toNat * 2 ^ 32 + lo.toNat := by
  rw [BitVec.toNat_append, ← Nat.shiftLeft_add_eq_or_of_lt lo.isLt, Nat.shiftLeft_eq]

/-- The high word of a negated double word. -/
theorem neg_append_iff (hi lo : Word) (carry : Bool) :
    negHigh hi carry ++ -lo = -(hi ++ lo) ↔ (carry = true ↔ lo ≠ 0) := by
  have hhi := hi.isLt
  have hlo := lo.isLt
  have hzero : lo ≠ 0 ↔ lo.toNat ≠ 0 := by
    rw [ne_eq, ← BitVec.toNat_inj]
    rfl
  have hcarry : (hi + if carry then 1 else 0).toNat = (hi.toNat + carry.toNat) % 2 ^ 32 := by
    rw [BitVec.toNat_add]
    cases carry <;> rfl
  rw [← BitVec.toNat_inj, toNat_append_word, BitVec.toNat_neg, BitVec.toNat_neg, toNat_append_word, negHigh,
    BitVec.toNat_neg, hcarry, hzero]
  generalize hi.toNat = x at hhi
  generalize lo.toNat = y at hlo
  cases carry with
  | false => simp only [Bool.toNat_false, Bool.false_eq_true, false_iff, not_not]; omega
  | true => simp only [Bool.toNat_true, true_iff]; omega

section Negate

variable {P : Type} [Bus P] [Ram P] {E : Failure → Prop} [hE : Accesses P E]
  {fs : List Flag} {b : Bool} {s : CpuState × Mem} {m : Machine P} {fuel : ℕ} {i j : Fin 8}
  {code : List Byte}

/-- An instruction that wrote a register is done. -/
theorem Sim.wrote {v len : Word} (h : Sim fs b (s.1.setReg .l i v, s.2) m) :
    Sim fs b (s.1.wrote i v (s.1.eip + len), s.2) (m.setEip (m.eip + len)) := by
  have heip : m.eip = s.1.eip := h.eip
  rw [heip]
  exact h.setEip (s.1.eip + len)

theorem trunc_l (v : Word) : Width.trunc .l v = v := Width.trunc_of_lt v.isLt

omit hE in
/-- `neg` of a register. -/
theorem doNeg_sim (h : Sim fs b s m) (htype : m.type .src = .reg) (hloc : m.loc .src = regNo i)
    (hval : m.val .src = s.1.reg .l i) :
    Returns (fun _ => Sim fs b (s.1.setReg .l i (-(s.1.gpr i)), s.2)) (doNeg .l m) E := by
  unfold doNeg
  rw [read_bind_run, hval, trunc_l, writeOperand_reg _ htype hloc]
  exact h.setReg .l i _

omit hE in
/-- `adc` of 0 to a register. -/
theorem doAdc_sim (h : Sim [] b s m) (htype : m.type .dest = .reg) (hloc : m.loc .dest = regNo j)
    (hdest : m.val .dest = s.1.reg .l j) (hsrc : m.val .src = 0) :
    Returns (fun _ => Sim status b
      (s.1.setReg .l j (s.1.gpr j + if s.1.flag .CF then 1 else 0), s.2)) (doAdc .l m) E := by
  have hcf : m.flag .CF = s.1.flag .CF := h.flag List.not_mem_nil
  have hzero : s.1.reg .l j + 0 = s.1.gpr j := BitVec.add_zero _
  unfold doAdc
  rw [read_bind_run, read_bind_run, read_bind_run, hdest, hsrc, hcf, trunc_l, hzero,
    bind_ok (writeOperand_reg _ htype hloc)]
  exact setAddFlags_sim _ _ _ ((h.setReg .l j _).mono (List.nil_subset _))

/-- **`negl` leaves the flags.** -/
theorem neg_step (hc : Coded s s.1.eip (negCode i)) (h : Sim fs false s m) :
    Returns (fun _ => Sim fs false (s.1.wrote i (-(s.1.gpr i)) (s.1.eip + 2), s.2))
      (execStep (fuel + 1) m) E := by
  refine execStep_sim h hc.head fun m' hsim _ => ?_
  refine group_sim hsim hc.tail.head fun m₁ h₁ => ?_
  change Returns _ (helperV (opRm doNeg) s.1.eip m₁) E
  refine helperV_sim h₁ ?_
  unfold opRm idex
  refine Returns.bind (decodeRm_reg_sim .l (by decide) h₁ hc.tail.head) fun len m₂ h₂ => ?_
  obtain ⟨h₂, rfl, htype, hloc, hval⟩ := h₂
  exact (doNeg_sim h₂ htype hloc hval).bind fun _ m₃ h₃ => h₃.wrote

theorem Coded.peek_immediate {eip v : Word} (hc : Coded s eip (immediate v)) :
    WordMem.peek s.2 (s.1.linear eip 1) 4 = v := by
  refine hc.peek_self.trans (Eq.trans (word_congr fun i hi => ?_) (word_byte v))
  have hi : i < 4 := hi
  interval_cases i <;> rfl

/-- `adcl $0` to a register. -/
theorem adcZero_step (hcode : AdcZeroCode j code) (hc : Coded s s.1.eip code) (h : Sim [] false s m) :
    Returns (fun _ => Sim status false (s.1.wrote j (s.1.gpr j + if s.1.flag .CF then 1 else 0)
      (s.1.eip + BitVec.ofNat 32 code.length), s.2)) (execStep (fuel + 1) m) E := by
  cases hcode with
  | byte =>
    refine execStep_sim h hc.head fun m' hsim _ => ?_
    refine group_sim hsim hc.tail.head fun m₁ h₁ => ?_
    change Returns _ (helperV (opSi2rm doAdc) s.1.eip m₁) E
    refine helperV_sim h₁ ?_
    unfold opSi2rm idex
    refine Returns.bind (decodeSi2rm_reg_sim .l h₁ hc.tail.head) fun len m₂ h₂ => ?_
    obtain ⟨h₂, rfl, htype, hloc, hdest, hsrc⟩ := h₂
    rw [hc.tail.tail.head] at hsrc
    exact (doAdc_sim h₂ htype hloc hdest hsrc).bind fun _ m₃ h₃ => h₃.wrote
  | word =>
    refine execStep_sim h hc.head fun m' hsim _ => ?_
    refine group_sim hsim hc.tail.head fun m₁ h₁ => ?_
    change Returns _ (helperV (opI2rm doAdc) s.1.eip m₁) E
    refine helperV_sim h₁ ?_
    unfold opI2rm idex
    refine Returns.bind (decodeI2rm_reg_sim .l h₁ hc.tail.head) fun len m₂ h₂ => ?_
    obtain ⟨h₂, rfl, htype, hloc, hdest, hsrc⟩ := h₂
    have hzero : m₂.val .src = 0 := hsrc.trans (Coded.peek_immediate hc.tail.tail)
    exact (doAdc_sim h₂ htype hloc hdest hzero).bind fun _ m₃ h₃ => h₃.wrote
  | eax hj =>
    subst hj
    refine execStep_sim h hc.head fun m' hsim _ => ?_
    change Returns _ (helperV (opI2a doAdc) s.1.eip m') E
    refine helperV_sim hsim ?_
    unfold opI2a idex decodeI2a
    have ha : Sim [] false s (stateD m' (decodeA .l .dest m')) := ⟨hsim.cpu, hsim.flags, hsim.mem, hsim.size⟩
    refine Returns.bind (Returns.bind (Q := fun _ m₁ => Sim [] false s m₁ ∧ m₁.type .dest = .reg ∧
      m₁.loc .dest = regNo rEAX ∧ m₁.val .dest = s.1.reg .l rEAX) ?_ fun _ m₁ h₁ => ?_)
      (Q := fun len m₂ => Sim [] false s m₂ ∧ len = 4 ∧ m₂.type .dest = .reg ∧
        m₂.loc .dest = regNo rEAX ∧ m₂.val .dest = s.1.reg .l rEAX ∧ m₂.val .src = 0) fun len m₂ h₂ => ?_
    · exact ⟨ha, rfl, rfl, hsim.reg .l rEAX⟩
    · obtain ⟨h₁, htype, hloc, hdest⟩ := h₁
      refine (decodeI_sim .l h₁).mono fun len m₂ h₂ => ?_
      obtain ⟨h₂, rfl, hop, -, hsrc⟩ := h₂
      refine ⟨h₂, rfl, ?_, ?_, ?_, hsrc.trans (Coded.peek_immediate hc.tail)⟩
      · rw [Machine.type, hop, ← htype, Machine.type]
      · rw [Machine.loc, hop, ← hloc, Machine.loc]
      · rw [Machine.val, hop, ← hdest, Machine.val]
    · obtain ⟨h₂, rfl, htype, hloc, hdest, hsrc⟩ := h₂
      exact (doAdc_sim h₂ htype hloc hdest hsrc).bind fun _ m₃ h₃ => h₃.wrote

/-- The three instructions. -/
def negIdiom (fuel : ℕ) : Cmd (Machine P) Unit := do
  execStep fuel
  execStep fuel
  execStep fuel

omit [Bus P] [Ram P] hE in
/-- The code stays where it is. -/
theorem Coded.wrote {v ip : Word} (hc : Coded s ip code) :
    Coded (s.1.wrote i v ip, s.2) (s.1.wrote i v ip).eip code := hc

/-- The processor after the idiom, but for its flags. -/
def CpuState.negated (c : CpuState) (i j : Fin 8) (len : ℕ) : CpuState :=
  let c₁ := c.wrote i (-(c.gpr i)) (c.eip + 2)
  let c₂ := c₁.wrote j (c₁.gpr j + if c₁.flag .CF then 1 else 0) (c₁.eip + BitVec.ofNat 32 len)
  c₂.wrote j (-(c₂.gpr j)) (c₂.eip + 2)

theorem negIdiom_sim (hcode : AdcZeroCode j code) (hc : Coded s s.1.eip (negCode i ++ code ++ negCode j))
    (h : Sim [] false s m) :
    Returns (fun _ => Sim status false (s.1.negated i j code.length, s.2)) (negIdiom (fuel + 1) m) E := by
  have hadc : Coded s (s.1.eip + 2) code := hc.left.right
  have hneg : Coded s (s.1.eip + 2 + BitVec.ofNat 32 code.length) (negCode j) := by
    have hright := hc.right
    rwa [List.length_append, BitVec.ofNat_add, ← BitVec.add_assoc] at hright
  unfold negIdiom CpuState.negated
  refine (neg_step hc.left.left h).bind fun _ m₁ h₁ => ?_
  have hadc₁ := hadc.wrote (i := i) (v := -(s.1.gpr i))
  have hneg₁ : Coded (s.1.wrote i (-(s.1.gpr i)) (s.1.eip + 2), s.2)
    ((s.1.wrote i (-(s.1.gpr i)) (s.1.eip + 2)).eip + BitVec.ofNat 32 code.length) (negCode j) := hneg
  generalize s.1.wrote i (-(s.1.gpr i)) (s.1.eip + 2) = c₁ at h₁ hadc₁ hneg₁
  refine (adcZero_step hcode hadc₁ h₁).bind fun _ m₂ h₂ => ?_
  exact neg_step hneg₁.wrote h₂

omit [Bus P] [Ram P] hE in
theorem gpr_wrote (c : CpuState) (i : Fin 8) (v eip : Word) :
    (c.wrote i v eip).gpr = Function.update c.gpr i v := rfl

omit [Bus P] [Ram P] hE in
/-- The registers that the idiom leaves. -/
theorem gpr_negated (c : CpuState) (hij : i ≠ j) (n : ℕ) : (c.negated i j n).gpr =
    Function.update (Function.update c.gpr i (-(c.gpr i))) j (negHigh (c.gpr j) (c.flag .CF)) := by
  have hflag : (c.wrote i (-(c.gpr i)) (c.eip + 2)).flag .CF = c.flag .CF := rfl
  unfold CpuState.negated negHigh
  dsimp only
  rw [gpr_wrote, gpr_wrote, Function.update_idem, Function.update_self, gpr_wrote,
    Function.update_of_ne hij.symm, hflag]

/-- **The negation of a double word.** `negl` leaves the flags, so the idiom adds
the carry from before it to the high word: this is the negation if and only if
that carry was set just when the low word is not zero. -/
theorem neg_double_iff (hij : i ≠ j) (hcode : AdcZeroCode j code) (hsize : m.ops.isOperandSize16 = false)
    (hc : Coded (m.cpu, m.mem) m.eip (negCode i ++ code ++ negCode j)) :
    Returns (fun _ m' => m'.reg .l i = -(m.reg .l i) ∧ m'.cpu.eflags = m.cpu.eflags)
      (execStep (fuel + 1) m) E ∧
    Returns (fun _ m' => m'.reg .l i = -(m.reg .l i) ∧
      m'.reg .l j = negHigh (m.reg .l j) (m.flag .CF) ∧
      (∀ k, k ≠ i → k ≠ j → m'.reg .l k = m.reg .l k) ∧ m'.mem = m.mem ∧
      (m'.reg .l j ++ m'.reg .l i = -(m.reg .l j ++ m.reg .l i) ↔
        (m.flag .CF = true ↔ m.reg .l i ≠ 0))) (negIdiom (fuel + 1) m) E := by
  have h : Sim [] false (m.cpu, m.mem) m := ⟨rfl, Only.refl _ _, rfl, hsize⟩
  refine ⟨(neg_step hc.left.left h).mono fun _ m' h' => ⟨?_, ?_⟩,
    (negIdiom_sim hcode hc h).mono fun _ m' h' => ?_⟩
  · rw [h'.reg]
    exact Function.update_self ..
  · rw [h'.cpu_eq]
    rfl
  · have hgpr : ∀ k, m'.reg .l k = Function.update (Function.update m.cpu.gpr i (-(m.cpu.gpr i))) j
        (negHigh (m.cpu.gpr j) (m.cpu.flag .CF)) k := fun k => by
      rw [h'.reg, ← gpr_negated m.cpu hij code.length]
      rfl
    have hlow : m'.reg .l i = -(m.reg .l i) := by
      rw [hgpr, Function.update_of_ne hij, Function.update_self]
      rfl
    have hhigh : m'.reg .l j = negHigh (m.reg .l j) (m.flag .CF) := by
      rw [hgpr, Function.update_self]
      rfl
    refine ⟨hlow, hhigh, fun k hi hj => ?_, h'.mem, ?_⟩
    · rw [hgpr, Function.update_of_ne hj, Function.update_of_ne hi]
      rfl
    · rw [hlow, hhigh]
      exact neg_append_iff _ _ _

end Negate

/-- The negation of 1, the carry clear or set before it. -/
def negMachine (eflags : Word) : Machine FlatBus :=
  let m := flatMachine (fun i => if i = rEAX then 1 else 0) [0xf7, 0xd8, 0x83, 0xd2, 0, 0xf7, 0xda]
  { m with cpu := { m.cpu with eflags := eflags } }

/-- With the carry set the result is -1. -/
theorem neg_double_one : ∃ u m', negIdiom 1 (negMachine 1) = .ok u m' ∧
    m'.reg .l rEDX ++ m'.reg .l rEAX = (-1 : BitVec 64) := by
  generalize hm : negMachine 1 = m
  have hc : Coded (m.cpu, m.mem) m.eip (negCode rEAX ++ [0x83, fields 3 2 rEDX, 0] ++ negCode rEDX) := by
    subst hm; decide +kernel
  obtain ⟨-, hidiom⟩ := neg_double_iff (E := fun _ => False) (show (rEAX : Fin 8) ≠ rEDX by decide) .byte
    (by subst hm; rfl) hc
  obtain ⟨u, m', hrun, -, -, -, -, hiff⟩ := Returns.exists_ok (o := negIdiom (0 + 1) m) hidiom
  refine ⟨u, m', hrun, (hiff.mpr ?_).trans ?_⟩ <;> subst hm <;> decide

/-- With the carry clear it is 2^32 - 1. -/
theorem neg_double_wrong : ∃ m', negIdiom 1 (negMachine 0) = .ok () m' ∧
    (negMachine 0).reg .l rEDX ++ (negMachine 0).reg .l rEAX = (1 : BitVec 64) ∧
    m'.reg .l rEDX ++ m'.reg .l rEAX = (0xffffffff : BitVec 64) ∧ (0xffffffff : BitVec 64) ≠ -1 := by
  have hrun := ok_stateD (show value (negIdiom 1 (negMachine 0)) = some () by decide +kernel) (negMachine 0)
  exact ⟨_, hrun, by decide, by decide +kernel, by decide⟩

end Nemu
