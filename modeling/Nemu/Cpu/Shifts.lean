/-
# Shifts

`shl`, `shr` and `sar` store the shifted operand, with the flags of the result,
but the carry is a bit of the count: its highest bit at the width of the operand
for `shl`, its lowest one for the others.

Key definitions: `ShiftOp`, `ShiftForm`, `ShiftOp.value`, `ShiftOp.lastOut`.
Key theorems: `doShift_ok`, `ShiftOp.toNat_result`, `shift_iff`.
-/
import Nemu.Cpu.Compare
import Nemu.Cpu.Registers

namespace Nemu

open Bytes Cmd Instr

/-- The three instructions. -/
inductive ShiftOp where
  | shl | shr | sar
  deriving DecidableEq

/-- Where the count is: it is 1, in `cl` or a byte of the instruction. -/
inductive ShiftForm where
  | one | cl | imm
  deriving DecidableEq

namespace ShiftOp

section

variable {P : Type} [Bus P]

def exec : ShiftOp → Width → Cmd (Machine P) Unit
  | shl => doShl
  | shr => doShr
  | sar => doSar

end

/-- The index in group 2. -/
def index : ShiftOp → ℕ
  | shl => 4
  | shr => 5
  | sar => 7

variable {w : ℕ}

/-- The shifted operand. -/
def value (op : ShiftOp) (v : BitVec w) (k : ℕ) : ℤ :=
  match op with
  | shl => v.toNat * 2 ^ k % 2 ^ w
  | shr => v.toNat / 2 ^ k
  | sar => v.toInt / 2 ^ k % 2 ^ w

/-- The last bit shifted out, if there is one. -/
def lastOut (op : ShiftOp) (v : BitVec w) (k : ℕ) : Option Bool :=
  if k = 0 then none
  else match op with
    | shl => if k ≤ w then some (v.getLsbD (w - k)) else none
    | shr => if k ≤ w then some (v.getLsbD (k - 1)) else none
    | sar => some (v.getLsbD (min k w - 1))

/-- The bit of the count byte that the code takes for the carry. -/
def countBit (op : ShiftOp) (w c : ℕ) : Bool :=
  match op with
  | shl => w == 8 && c.testBit 7
  | shr | sar => c.testBit 0

end ShiftOp

section Shift

variable {P : Type} [Bus P] {d : Width}

def ShiftForm.decode (d : Width) : ShiftForm → Helper P
  | .one => decodeRm1 d
  | .cl => decodeRmCl d
  | .imm => decodeRmImm d

def ShiftForm.helper (op : ShiftOp) (form : ShiftForm) (d : Width) : Helper P :=
  idex (form.decode d) (op.exec d)

/-- The opcodes of the shifts. -/
theorem shift_tables (op : ShiftOp) :
    entry (P := P) group21B op.index = ShiftForm.one.helper op .b ∧
    entry (P := P) group21V op.index = helperV (ShiftForm.one.helper op) ∧
    entry (P := P) group2ClB op.index = ShiftForm.cl.helper op .b ∧
    entry (P := P) group2ClV op.index = helperV (ShiftForm.cl.helper op) ∧
    entry (P := P) group2IB op.index = ShiftForm.imm.helper op .b ∧
    entry (P := P) group2IV op.index = helperV (ShiftForm.imm.helper op) := by
  cases op <;> exact ⟨rfl, rfl, rfl, rfl, rfl, rfl⟩

/-! ### The result -/

omit [Bus P] in
theorem toNat_count (d : Width) {c : Word} (hc : c.toNat < 256) :
    (d.trunc c &&& 0x1f).toNat = c.toNat % 32 := by
  have htrunc : d.trunc c = c :=
    Width.trunc_of_lt (hc.trans_le (by cases d <;> decide))
  rw [htrunc, BitVec.toNat_and]
  exact Nat.and_two_pow_sub_one_eq_mod c.toNat 5

/-- Modulo the width a signed word is as the unsigned one. -/
theorem toNat_emod_bits (d : Width) (x : Word) : (x.toNat : ℤ) % 2 ^ d.bits = x.toInt % 2 ^ d.bits := by
  have hdvd : (2 : ℤ) ^ d.bits ∣ 2 ^ 32 := by
    exact_mod_cast Nat.pow_dvd_pow 2 d.bits_le
  have hnat : (x.toNat : ℤ) = x.toInt % 2 ^ 32 := by
    have h := congrArg BitVec.toNat (BitVec.ofInt_toInt (x := x))
    rw [BitVec.toNat_ofInt] at h
    have hpos : 0 ≤ x.toInt % ((2 ^ 32 : ℕ) : ℤ) := Int.emod_nonneg _ (by norm_num)
    rw [← h, Int.toNat_of_nonneg hpos]
    norm_cast
  calc (x.toNat : ℤ) % 2 ^ d.bits = x.toInt % 2 ^ 32 % 2 ^ d.bits := by rw [← hnat]
    _ = x.toInt % 2 ^ d.bits := Int.emod_emod_of_dvd _ hdvd

/-- What a shift computes from `dest`, at the width. -/
def ShiftOp.result (op : ShiftOp) (d : Width) (dest : Word) (k : ℕ) : Word :=
  match op with
  | .shl => d.trunc (d.trunc dest <<< k)
  | .shr => d.trunc (d.trunc dest >>> k)
  | .sar => d.trunc ((d.sext dest).sshiftRight k)

theorem ShiftOp.toNat_result (op : ShiftOp) (d : Width) (dest : Word) (k : ℕ) :
    ((op.result d dest k).toNat : ℤ) = op.value (dest.setWidth d.bits) k := by
  have hv : (d.trunc dest).toNat = (dest.setWidth d.bits).toNat := by
    rw [Width.toNat_trunc, BitVec.toNat_setWidth]
  have hdvd : 2 ^ d.bits ∣ 2 ^ 32 := Nat.pow_dvd_pow 2 d.bits_le
  unfold result value
  cases op with
  | shl =>
    dsimp only
    rw [Width.toNat_trunc, BitVec.toNat_shiftLeft, hv, Nat.shiftLeft_eq, Nat.mod_mod_of_dvd _ hdvd]
    norm_cast
  | shr =>
    dsimp only
    have hlt : (dest.setWidth d.bits).toNat / 2 ^ k < 2 ^ d.bits :=
      (Nat.div_le_self _ _).trans_lt (BitVec.isLt _)
    rw [Width.toNat_trunc, BitVec.toNat_ushiftRight, hv, Nat.shiftRight_eq_div_pow,
      Nat.mod_eq_of_lt hlt]
    norm_cast
  | sar =>
    dsimp only
    have hint : (d.sext dest).toInt = (dest.setWidth d.bits).toInt :=
      BitVec.toInt_signExtend_of_le d.bits_le
    rw [Width.toNat_trunc]
    push_cast
    rw [toNat_emod_bits, BitVec.toInt_sshiftRight, hint, Int.shiftRight_eq_div_pow]
    norm_cast

/-- The bit of the count that the code tests. -/
theorem ShiftOp.countBit_eq (op : ShiftOp) (d : Width) {c : Word} (hc : c.toNat < 256) :
    (match op with
      | .shl => d.msb (d.trunc c)
      | .shr | .sar => d.msb (d.trunc c <<< (d.bits - 1))) = op.countBit d.bits c.toNat := by
  have htrunc : d.trunc c = c :=
    Width.trunc_of_lt (hc.trans_le (by cases d <;> decide))
  have hlow : d.msb (c <<< (d.bits - 1)) = c.toNat.testBit 0 := by
    have hlt : d.bits - 1 < 32 := by cases d <;> decide
    rw [Width.msb, BitVec.getLsbD_shiftLeft, decide_eq_true hlt, Nat.sub_self]
    simp [BitVec.getLsbD]
  rw [htrunc]
  cases op with
  | shl =>
    have hzero : ∀ i, 8 ≤ i → c.getLsbD i = false := by
      intro i hi
      have hpow : 256 ≤ 2 ^ i := Nat.pow_le_pow_right (n := 2) (by norm_num) hi
      exact Nat.testBit_lt_two_pow (hc.trans_le hpow)
    cases d with
    | b => rfl
    | w => exact hzero 15 (by norm_num)
    | l => exact hzero 31 (by norm_num)
  | shr => exact hlow
  | sar => exact hlow

/-! ### The instruction -/

/-- What `do_execute` leaves: the result, its flags and this carry. -/
structure Shifted (d : Width) (r : Word) (carry : Bool) (m m' : Machine P) : Prop where
  stored : Stored d .dest r m m'
  cf : m'.flag .CF = carry
  zf : m'.flag .ZF = (r == 0)
  sf : m'.flag .SF = d.msb r
  pf : m'.flag .PF = evenParity r

theorem doShift_ok {carry : Word → Bool} {f : Word → ℕ → Word} {m m' : Machine P}
    (h : doShift d carry f m = .ok () m') :
    Shifted d (d.trunc (f (m.val .dest) (d.trunc (m.val .src) &&& 0x1f).toNat))
      (carry (d.trunc (m.val .src))) m m' := by
  unfold doShift at h
  simp only [read_bind_run, write_bind_run] at h
  obtain ⟨_, m₁, hwrite, hflags⟩ := bind_eq_ok h
  obtain ⟨hstored, heflags, -⟩ := writeOperand_stored hwrite
  rw [Width.trunc_trunc] at hstored
  injection hflags with _ hm
  subst hm
  have hcf : m₁.flag .CF = carry (d.trunc (m.val .src)) := by
    have hflag : m₁.flag .CF = (m.setFlag .CF (carry (d.trunc (m.val .src)))).flag .CF :=
      congrArg (fun e : Word => e.getLsbD Flag.CF.bit) heflags
    rw [hflag, Machine.flag_setFlag, if_pos rfl]
  refine ⟨Stored.after ?_ rfl rfl, ?_, ?_, ?_, ?_⟩
  · -- the carry was set before the write
    cases hstored with
    | reg i htype hloc hreg => exact .reg i htype hloc hreg
    | mem htype hwrite => exact .mem htype hwrite
  · simp [hcf]
  · simp
  · simp
  · simp [parity_eq]

/-- **What a shift does.** -/
theorem ShiftOp.exec_ok {op : ShiftOp} {m m' : Machine P} (hc : (m.val .src).toNat < 256)
    (h : op.exec d m = .ok () m') :
    Shifted d (op.result d (m.val .dest) ((m.val .src).toNat % 32))
      (op.countBit d.bits (m.val .src).toNat) m m' := by
  have hcount := toNat_count d hc
  have hcarry := op.countBit_eq d hc
  cases op with
  | shl =>
    have hs : doShift d d.msb (fun dest count => d.trunc dest <<< count) m = .ok () m' := h
    have hdone := doShift_ok hs
    rw [hcount] at hdone
    exact hcarry ▸ hdone
  | shr =>
    have hs : doShift d (fun src => d.msb (src <<< (d.bits - 1)))
      (fun dest count => d.trunc dest >>> count) m = .ok () m' := h
    have hdone := doShift_ok hs
    rw [hcount] at hdone
    exact hcarry ▸ hdone
  | sar =>
    have hs : doShift d (fun src => d.msb (src <<< (d.bits - 1)))
      (fun dest count => (d.sext dest).sshiftRight count) m = .ok () m' := h
    have hdone := doShift_ok hs
    rw [hcount] at hdone
    exact hcarry ▸ hdone

/-! ### Its forms -/

/-- The count of a form is a byte. -/
def ShiftForm.Counts (form : ShiftForm) (m : Machine P) (c : Word) : Prop :=
  match form with
  | .one => c = 1
  | .cl => c = m.reg .b rECX
  | .imm => c.toNat < 256

omit [Bus P] in
theorem ShiftForm.Counts.lt {form : ShiftForm} {m : Machine P} {c : Word} (h : form.Counts m c) :
    c.toNat < 256 := by
  cases form with
  | one =>
    have hc : c = 1 := h
    rw [hc]
    decide
  | cl =>
    have hc : c = m.reg .b rECX := h
    rw [hc]
    exact m.toNat_reg_lt .b rECX
  | imm => exact h

/-- **The decoded operands**: one of the width, and the count. -/
theorem ShiftForm.decode_ok {form : ShiftForm} {eip len : Word} {m m₁ : Machine P}
    (h : form.decode d eip m = .ok len m₁) : Fits d .dest m₁ ∧ form.Counts m (m₁.val .src) := by
  have hrm := decodeRmInternal_ends d eip (show Slot.dest ≠ .src by decide) m
  cases form with
  | one =>
    obtain ⟨len₀, m₀, hdec, h⟩ := bind_eq_ok h
    rw [show decodeRmInternal d eip .dest .src m = .ok len₀ m₀ from hdec] at hrm
    injection h with _ h
    subst h
    exact ⟨by simpa [Fits] using hrm.1, by simp [Counts]⟩
  | cl =>
    obtain ⟨len₀, m₀, hdec, h⟩ := bind_eq_ok h
    have hcpu : m₀.cpu = m.cpu := cpu_of_keeps hdec
    rw [show decodeRmInternal d eip .dest .src m = .ok len₀ m₀ from hdec] at hrm
    injection h with _ h
    subst h
    refine ⟨by simpa [Fits] using hrm.1, ?_⟩
    have hval : m₀.reg .b rECX = m.reg .b rECX := reg_of_cpu hcpu .b rECX
    simp [Counts, ← hval]
    rfl
  | imm =>
    obtain ⟨len₀, m₀, hdec, h⟩ := bind_eq_ok h
    rw [show decodeRmInternal d eip .dest .src m = .ok len₀ m₀ from hdec] at hrm
    obtain ⟨len₁, m₂, himm, h⟩ := bind_eq_ok h
    injection h with _ h
    subst h
    have hends := decodeI_ends .b (eip + len₀) m₀
    rw [himm] at hends
    exact ⟨by rw [Fits, hends.2]; exact hrm.1, hends.1⟩

/-- **Shifts.** The shifted operand is stored, with its flags; the carry is the
last bit shifted out if and only if the bit of the count is the same. -/
theorem shift_iff {op : ShiftOp} {form : ShiftForm} {eip len : Word} {m m₁ m' : Machine P}
    (hdec : form.decode d (eip + 1) m = .ok len m₁)
    (hrun : form.helper op d eip m = .ok (len + 1) m') :
    form.Counts m (m₁.val .src) ∧ ∃ r : Word, Stored d .dest r m₁ m' ∧
      (r.toNat : ℤ) = op.value ((m₁.val .dest).setWidth d.bits) ((m₁.val .src).toNat % 32) ∧
      m'.flag .ZF = (r == 0) ∧ m'.flag .SF = (r.setWidth d.bits).msb ∧
      m'.flag .PF = evenParity r ∧
      ((∀ b ∈ op.lastOut ((m₁.val .dest).setWidth d.bits) ((m₁.val .src).toNat % 32),
          m'.flag .CF = b) ↔
        ∀ b ∈ op.lastOut ((m₁.val .dest).setWidth d.bits) ((m₁.val .src).toNat % 32),
          op.countBit d.bits (m₁.val .src).toNat = b) := by
  obtain ⟨-, hcount⟩ := ShiftForm.decode_ok hdec
  have hexec := exec_of_idex hdec hrun
  have hdone := ShiftOp.exec_ok hcount.lt hexec
  refine ⟨hcount, _, hdone.stored, op.toNat_result d _ _, hdone.zf, ?_, hdone.pf, ?_⟩
  · rw [hdone.sf, d.msb_eq]
  · rw [hdone.cf]

end Shift

/-- `shr $2,%eax` of 9. -/
def shrMachine : Machine FlatBus := flatMachine (fun _ => 9) [0xc1, 0xe8, 0x02]

/-- It stores 2, and the last bit out of 9 is that of the count. -/
theorem shift_iff_shr : ∃ m₁ m', ShiftForm.imm.decode .l 1 shrMachine = .ok 2 m₁ ∧
    ShiftForm.imm.helper .shr .l 0 shrMachine = .ok 3 m' ∧ m'.flag .CF = false ∧
    ∃ r : Word, Stored .l .dest r m₁ m' ∧ (r.toNat : ℤ) = 2 := by
  have hdec := ok_stateD (show value (ShiftForm.imm.decode .l 1 shrMachine) = some 2 by decide +kernel)
    shrMachine
  have hrun := ok_stateD (show value (ShiftForm.imm.helper .shr .l 0 shrMachine) = some (2 + 1) by
    decide +kernel) shrMachine
  obtain ⟨-, r, hstored, hr, -, -, -, hcf⟩ := shift_iff hdec hrun
  refine ⟨_, _, hdec, hrun, hcf.mpr ?_ false ?_, r, hstored, hr.trans ?_⟩
  · decide +kernel
  · decide +kernel
  · decide +kernel

/-- `shl $1,%eax` of `0x80000000`: the bit shifted out is not in the carry. -/
theorem shl_carry_wrong : ∃ m₁ m',
    ShiftForm.one.decode .l 1 (flatMachine (fun _ => 0x80000000) [0xd1, 0xe0]) = .ok 1 m₁ ∧
    ShiftForm.one.helper .shl .l 0 (flatMachine (fun _ => 0x80000000) [0xd1, 0xe0]) = .ok 2 m' ∧
    ShiftOp.lastOut .shl ((m₁.val .dest).setWidth 32) ((m₁.val .src).toNat % 32) = some true ∧
    m'.flag .CF = false := by
  have hdec := ok_stateD (show value (ShiftForm.one.decode .l 1
    (flatMachine (fun _ => 0x80000000) [0xd1, 0xe0])) = some 1 by decide +kernel) shrMachine
  have hrun := ok_stateD (show value (ShiftForm.one.helper .shl .l 0
    (flatMachine (fun _ => 0x80000000) [0xd1, 0xe0])) = some 2 by decide +kernel) shrMachine
  exact ⟨_, _, hdec, hrun, by decide +kernel, by decide +kernel⟩

end Nemu
