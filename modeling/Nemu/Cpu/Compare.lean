/-
# Comparisons

After `cmp` the flags are those of the subtraction (`Compared`), and a condition
holds of the flags when the relation it stands for holds of the operands. But the
16-bit `cmp` with a sign-extended byte compares with all 32 bits of it, so the carry is
wrong when the byte is negative.

Key definitions: `Cc.holds`, `Compared`, `CmpForm`.
Key theorems: `doCmp_run`, `Compared.test_iff`, `CmpForm.decode_ends`, `carry_eq`.
-/
import Nemu.Cpu.FlatBus
import Nemu.Cpu.Flags

namespace Nemu

open Bytes Cmd Instr

/-! ### Relations and flags -/

/-- The relation of a condition, between the operands of a comparison. -/
def Instr.Cc.holds {n : ℕ} (x y : BitVec n) : Cc → Bool
  | .o => x.ssubOverflow y
  | .no => !x.ssubOverflow y
  | .b => x.ult y
  | .ae => y.ule x
  | .e => x == y
  | .ne => x != y
  | .be => x.ule y
  | .a => y.ult x
  | .s => (x - y).msb
  | .ns => !(x - y).msb
  | .p => evenParity (x - y)
  | .np => !evenParity (x - y)
  | .l => x.slt y
  | .ge => y.sle x
  | .le => x.sle y
  | .g => y.slt x

/-- The overflow of a subtraction, from the signs. -/
theorem ssubOverflow_eq_msb {n : ℕ} (x y : BitVec n) :
    x.ssubOverflow y = (x.msb != y.msb && (x - y).msb == y.msb) := by
  rw [BitVec.ssubOverflow_eq]
  cases x.msb <;> cases y.msb <;> cases (x - y).msb <;> rfl

/-- Signed less-than, from the sign and the overflow of the difference. -/
theorem slt_eq_msb_bne {n : ℕ} (x y : BitVec n) :
    x.slt y = ((x - y).msb != x.ssubOverflow y) := by
  cases ho : x.ssubOverflow y with
  | false =>
    have hsub := BitVec.toInt_sub_of_not_ssubOverflow (x := x) (y := y) (by simp [ho])
    rw [Bool.bne_false, BitVec.slt_eq_decide, BitVec.msb_eq_toInt, hsub]
    exact decide_eq_decide.mpr (by omega)
  | true =>
    rw [ssubOverflow_eq_msb, Bool.and_eq_true, beq_iff_eq] at ho
    have hne : x.msb ≠ y.msb := by simpa using ho.1
    rw [ho.2, BitVec.slt_eq_not_ult_of_msb_neq hne, BitVec.ult_eq_msb_of_msb_neq hne, Bool.bne_true]

/-- The flags of a comparison of `x` with `y`, with this carry. -/
structure Compared {P : Type} {n : ℕ} (m : Machine P) (carry : Bool) (x y : BitVec n) : Prop where
  cf : m.flag .CF = carry
  zf : m.flag .ZF = (x == y)
  sf : m.flag .SF = (x - y).msb
  of : m.flag .OF = x.ssubOverflow y
  pf : m.flag .PF = evenParity (x - y)

/-- The conditions that look at the carry. -/
def Instr.Cc.usesCarry : Cc → Bool
  | .b | .ae | .be | .a => true
  | _ => false

section Compared

variable {P : Type} {n : ℕ} {m : Machine P} {carry : Bool} {x y : BitVec n}

/-- Without a wrong carry every condition tests its relation. -/
theorem Compared.test_eq (h : Compared m carry x y) (c : Cc)
    (hc : c.usesCarry = true → carry = x.ult y) : c.test m = c.holds x y := by
  have hle : ∀ u v : BitVec n, u.sle v = !v.slt u := fun u v => BitVec.sle_eq_not_slt
  have hule : ∀ u v : BitVec n, u.ule v = !v.ult u := fun u v => BitVec.ule_eq_not_ult u v
  have hbe : x.ule y = (x.ult y || x == y) := by
    rw [BitVec.ule_eq_decide, BitVec.ult_eq_decide]
    by_cases hxy : x = y
    · simp [hxy]
    · have hne : x.toNat ≠ y.toNat := fun he => hxy (BitVec.eq_of_toNat_eq he)
      rw [beq_false_of_ne hxy, Bool.or_false]
      exact decide_eq_decide.mpr (by omega)
  have hsle : x.sle y = (x.slt y || x == y) := BitVec.sle_eq_slt_or_eq
  have hlt := slt_eq_msb_bne x y
  cases c <;> simp only [Cc.test, Cc.holds, h.cf, h.zf, h.sf, h.of, h.pf]
  case b => exact hc rfl
  case ae => rw [hc rfl, hule]
  case be => rw [hc rfl, hbe]
  case a => rw [hc rfl, ← Bool.not_or, ← hbe, hule, Bool.not_not]
  case ne => rfl
  case l => exact hlt.symm
  case ge =>
    rw [hle, hlt]
    cases (x - y).msb <;> cases x.ssubOverflow y <;> rfl
  case le => rw [hsle, hlt, Bool.or_comm]
  case g =>
    have hg : y.slt x = !x.sle y := by rw [hle, Bool.not_not]
    rw [hg, hsle, hlt]
    cases (x - y).msb <;> cases x.ssubOverflow y <;> cases x == y <;> rfl

/-- **When a condition tests its relation**, whatever the carry is. -/
theorem Compared.test_iff (h : Compared m carry x y) (c : Cc) :
    c.test m = c.holds x y ↔
      ¬ (carry ≠ x.ult y ∧ (c = .b ∨ c = .ae ∨ (c = .be ∨ c = .a) ∧ x ≠ y)) := by
  by_cases hcarry : carry = x.ult y
  · exact iff_of_true (h.test_eq c fun _ => hcarry) fun hc => hc.1 hcarry
  have hneg : carry = !x.ult y := by
    revert hcarry
    cases carry <;> cases x.ult y <;> decide
  by_cases hu : c.usesCarry = true
  · have hule : ∀ u v : BitVec n, u.ule v = !v.ult u := fun u v => BitVec.ule_eq_not_ult u v
    have hirr : y.ult y = false := by simp [BitVec.ult_eq_decide]
    have hne : x ≠ y → y.ult x = !x.ult y := fun hxy => by
      have : x.toNat ≠ y.toNat := fun he => hxy (BitVec.eq_of_toNat_eq he)
      rw [BitVec.ult_eq_decide, BitVec.ult_eq_decide, ← decide_not]
      exact decide_eq_decide.mpr (by omega)
    cases c <;> first
      | exact absurd hu Bool.false_ne_true
      | skip
    all_goals
      simp only [Cc.test, Cc.holds, h.cf, h.zf, hneg, hule]
      by_cases hxy : x = y
      · simp [hxy, hirr]
      · simp [hxy, hne]
  · refine iff_of_true (h.test_eq c fun hc => absurd hc hu) fun hc => hu ?_
    rcases hc.2 with rfl | rfl | ⟨rfl | rfl, -⟩ <;> rfl

end Compared

/-! ### The comparison -/

section Cmp

variable {P : Type} [Bus P]

theorem evenParity_setWidth {n : ℕ} (x : BitVec n) : evenParity (x.setWidth 32) = evenParity x := by
  have hbit : ∀ i ∈ List.range 8, ((x.setWidth 32).getLsbD i).toNat = (x.getLsbD i).toNat := by
    intro i hi
    have hi8 : i < 8 := List.mem_range.mp hi
    rw [BitVec.getLsbD_setWidth, decide_eq_true (by omega), Bool.true_and]
  unfold evenParity
  rw [List.map_congr_left hbit]

/-- The difference of two operands is zero when they are equal. -/
theorem setWidth_sub_beq_zero (d : Width) (x y : BitVec d.bits) :
    ((x - y).setWidth 32 == (0 : Word)) = (x == y) := by
  have hlt : (x - y).toNat < 2 ^ 32 :=
    (x - y).isLt.trans_le (Nat.pow_le_pow_right (by norm_num) d.bits_le)
  have hzero : (x - y).setWidth 32 = (0 : Word) ↔ x = y := by
    rw [← BitVec.toNat_inj, BitVec.toNat_setWidth, Nat.mod_eq_of_lt hlt]
    constructor
    · intro h
      have hsub : x - y = 0 := BitVec.eq_of_toNat_eq h
      calc x = x - y + y := (BitVec.sub_add_cancel x y).symm
        _ = 0 + y := by rw [hsub]
        _ = y := BitVec.zero_add y
    · rintro rfl
      rw [BitVec.sub_self]
      rfl
  by_cases h : x = y
  · rw [beq_iff_eq.mpr h, beq_iff_eq.mpr (hzero.mpr h)]
  · rw [beq_false_of_ne h, beq_false_of_ne (mt hzero.mp h)]

omit [Bus P] in
/-- `cmp` compares the operands, but with the carry of the 32-bit fields. -/
theorem doCmp_run (d : Width) (m : Machine P) : ∃ m', doCmp d m = .ok () m' ∧
    Compared m' ((m.val .dest).ult (m.val .src)) ((m.val .dest).setWidth d.bits)
      ((m.val .src).setWidth d.bits) := by
  set x := (m.val .dest).setWidth d.bits with hx
  set y := (m.val .src).setWidth d.bits with hy
  have hresult : d.trunc (m.val .dest - m.val .src) = (x - y).setWidth 32 := d.trunc_sub _ _
  have hmsb : d.msb ((x - y).setWidth 32) = (x - y).msb := by
    rw [d.msb_eq, BitVec.setWidth_setWidth_of_le _ d.bits_le, BitVec.setWidth_eq]
  obtain ⟨m', hrun, hcf, hof, hsf, hzf, hpf⟩ := setSubFlags_run d ((m.val .dest).ult (m.val .src))
    (m.val .dest) (m.val .src) (d.trunc (m.val .dest - m.val .src)) m
  rw [hresult] at hof hsf hzf hpf
  refine ⟨m', hrun, hcf, ?_, ?_, ?_, ?_⟩
  · rw [hzf, setWidth_sub_beq_zero]
  · rw [hsf, hmsb]
  · rw [hof, hmsb, d.msb_eq, d.msb_eq, ssubOverflow_eq_msb]
  · rw [hpf, parity_eq, evenParity_setWidth]

/-! ### Its encodings -/

/-- The forms of `cmp`: `cmp_r2rm`, …, `cmp_i2a`. -/
inductive CmpForm where
  | r2rm | rm2r | i2rm | si2rm | i2a
  deriving DecidableEq

def CmpForm.decode (d : Width) : CmpForm → Helper P
  | .r2rm => decodeR2rm d
  | .rm2r => decodeRm2r d
  | .i2rm => decodeI2rm d
  | .si2rm => decodeSi2rm d
  | .i2a => decodeI2a d

def CmpForm.helper (d : Width) (form : CmpForm) : Helper P := idex (form.decode d) (doCmp d)

/-- The opcodes of `cmp`. -/
theorem cmpForm_tables (exec : Helper P) (fuel : ℕ) :
    entry (opcodeTable exec fuel) 0x38 = CmpForm.helper .b .r2rm ∧
    entry (opcodeTable exec fuel) 0x39 = helperV (CmpForm.helper · .r2rm) ∧
    entry (opcodeTable exec fuel) 0x3a = CmpForm.helper .b .rm2r ∧
    entry (opcodeTable exec fuel) 0x3b = helperV (CmpForm.helper · .rm2r) ∧
    entry (opcodeTable exec fuel) 0x3c = CmpForm.helper .b .i2a ∧
    entry (opcodeTable exec fuel) 0x3d = helperV (CmpForm.helper · .i2a) ∧
    entry (P := P) group1B 7 = CmpForm.helper .b .i2rm ∧
    entry (P := P) group1V 7 = helperV (CmpForm.helper · .i2rm) ∧
    entry (P := P) group1SxV 7 = helperV (CmpForm.helper · .si2rm) :=
  ⟨rfl, rfl, rfl, rfl, rfl, rfl, rfl, rfl, rfl⟩

/-- The operand fits the width. -/
def Fits (d : Width) (k : Slot) (m : Machine P) : Prop := (m.val k).toNat < 2 ^ d.bits

theorem loadAddr_ends (eip mod : Word) (k : Slot) (m : Machine P) :
    Ends (fun _ _ => True) (fun _ => False) (loadAddr eip mod k m) := by
  unfold loadAddr
  by_cases h3 : bits67 mod = 3
  · rw [if_pos h3]
    trivial
  · rw [if_neg h3]
    refine Ends.bind (Q := fun _ _ => True) ?_ fun sib m _ => ?_
    · by_cases h4 : bits02 mod = rESP
      · rw [if_pos h4]
        exact (swaddrRead_ends _ _ _ m).mono (fun _ _ _ => trivial) fun _ h => h
      · rw [if_neg h4]
        trivial
    refine Ends.bind (Q := fun _ _ => True) ?_ fun disp m _ => trivial
    by_cases h0 : (addrForm mod sib).dispSize = 0
    · rw [if_pos h0]
      trivial
    · rw [if_neg h0]
      exact (swaddrRead_ends _ _ _ m).mono (fun _ _ _ => trivial) fun _ h => h

/-- The decoded operands fit the width. -/
theorem decodeRmInternal_ends (d : Width) (eip : Word) {k reg : Slot} (hne : k ≠ reg)
    (m : Machine P) : Ends (fun _ m' => Fits d k m' ∧ Fits d reg m') (fun _ => False)
      (decodeRmInternal d eip k reg m) := by
  have hmodrm : Ends (fun _ m' => Fits d k m') (fun _ => False)
      (readModRM d eip k reg (m.setSize k d.bytes)) := by
    unfold readModRM
    refine (swaddrRead_ends eip 1 1 _).bind fun mod m _ => ?_
    simp only [write_bind_run]
    by_cases h3 : bits67 mod = 3
    · rw [if_pos h3]
      change Fits d k (Machine.setVal _ k _)
      rw [Fits, Machine.val_setVal, if_pos rfl]
      exact Machine.toNat_reg_lt ..
    · rw [if_neg h3]
      refine (loadAddr_ends _ _ _ _).bind fun r m _ => ?_
      refine (swaddrRead_ends _ _ _ m).bind fun v m hv => ?_
      change Fits d k (m.setVal k v)
      rw [Fits, Machine.val_setVal, if_pos rfl]
      exact hv.2
  unfold decodeRmInternal
  rw [write_bind_run]
  refine hmodrm.bind fun r m hk => ?_
  change Fits d k (m.setVal reg _) ∧ Fits d reg (m.setVal reg _)
  rw [Fits, Fits, Machine.val_setVal, Machine.val_setVal, if_neg hne, if_pos rfl]
  exact ⟨hk, Machine.toNat_reg_lt ..⟩

/-- An immediate operand; the others keep their values. -/
theorem decodeI_ends (d : Width) (eip : Word) (m : Machine P) :
    Ends (fun _ m' => Fits d .src m' ∧ m'.val .dest = m.val .dest) (fun _ => False)
      (decodeI d eip m) := by
  unfold decodeI
  rw [write_bind_run]
  refine (swaddrRead_ends _ _ _ _).bind fun v m' hv => ?_
  obtain ⟨⟨p, rfl⟩, hv⟩ := hv
  refine ⟨?_, ?_⟩
  · change Fits d .src (Machine.setVal _ .src v)
    rw [Fits, Machine.val_setVal, if_pos rfl]
    exact hv
  · simp

/-- A sign-extended byte as an operand. -/
theorem decodeSi_ends (eip : Word) (m : Machine P) :
    Ends (fun _ m' => (∃ imm : Byte, m'.val .src = imm.signExtend 32) ∧ m'.val .dest = m.val .dest)
      (fun _ => False) (decodeSi .b eip m) := by
  unfold decodeSi
  rw [write_bind_run]
  refine (swaddrRead_ends _ _ _ _).bind fun v m' hv => ?_
  obtain ⟨⟨p, rfl⟩, hv⟩ := hv
  refine ⟨⟨v.setWidth 8, ?_⟩, ?_⟩
  · simp [Width.sext, Width.bits, Width.bytes]
  · simp

/-- **What the forms compare**: a destination of the width with a source of the
width, or with a sign-extended byte. -/
theorem CmpForm.decode_ends (form : CmpForm) (d : Width) (eip : Word) (m : Machine P) :
    Ends (fun _ m' => Fits d .dest m' ∧
      if form = .si2rm then ∃ imm : Byte, m'.val .src = imm.signExtend 32 else Fits d .src m')
      (fun _ => False) (form.decode d eip m) := by
  cases form with
  | r2rm => exact decodeRmInternal_ends d eip (by decide) m
  | rm2r => exact (decodeRmInternal_ends d eip (by decide) m).mono (fun _ _ h => h.symm) fun _ h => h
  | i2rm =>
    refine (decodeRmInternal_ends d eip (by decide) m).bind fun len m h => ?_
    refine (decodeI_ends d _ m).bind fun len' m' h' => ?_
    exact ⟨by rw [Fits, h'.2]; exact h.1, h'.1⟩
  | si2rm =>
    refine (decodeRmInternal_ends d eip (by decide) m).bind fun len m h => ?_
    refine (decodeSi_ends _ m).bind fun len' m' h' => ?_
    exact ⟨by rw [Fits, h'.2]; exact h.1, h'.1⟩
  | i2a =>
    refine Ends.bind (Q := fun _ m' => Fits d .dest m') ?_ fun _ m h => ?_
    · change Fits d .dest (Machine.setVal _ .dest _)
      rw [Fits, Machine.val_setVal, if_pos rfl]
      exact Machine.toNat_reg_lt ..
    · exact (decodeI_ends d _ m).mono (fun _ _ h' => ⟨by rw [Fits, h'.2]; exact h, h'.1⟩) fun _ h => h

/-! ### The carry -/

/-- A sign-extended byte, as a 32-bit and as a 16-bit word. -/
theorem toNat_signExtend_byte (imm : Byte) :
    (imm.signExtend 32).toNat = imm.toNat + (if imm.msb then 2 ^ 32 - 2 ^ 8 else 0) ∧
    ((imm.signExtend 32).setWidth 16).toNat = imm.toNat + (if imm.msb then 2 ^ 16 - 2 ^ 8 else 0) := by
  have h32 : (imm.signExtend 32).toNat = imm.toNat + (if imm.msb then 2 ^ 32 - 2 ^ 8 else 0) := by
    rw [BitVec.toNat_signExtend, BitVec.toNat_setWidth]
    have := imm.isLt
    split <;> omega
  refine ⟨h32, ?_⟩
  rw [BitVec.toNat_setWidth, h32]
  have := imm.isLt
  split <;> omega

/-- A 16-bit operand against all 32 bits of a sign-extended byte. -/
theorem ult_signExtend_byte {x : Word} (hx : x.toNat < 2 ^ 16) (imm : Byte) :
    x.ult (imm.signExtend 32) = ((x.setWidth 16).ult ((imm.signExtend 32).setWidth 16) ||
      ((imm.signExtend 32).setWidth 16).msb) := by
  obtain ⟨h32, h16⟩ := toNat_signExtend_byte imm
  have himm := imm.isLt
  have hx16 : (x.setWidth 16).toNat = x.toNat := by rw [BitVec.toNat_setWidth, Nat.mod_eq_of_lt hx]
  rw [BitVec.ult_eq_decide, BitVec.ult_eq_decide, BitVec.msb_eq_decide, hx16, h32, h16,
    ← Bool.decide_or]
  refine decide_eq_decide.mpr ?_
  cases hmsb : imm.msb with
  | true =>
    rw [BitVec.msb_eq_decide, decide_eq_true_iff] at hmsb
    rw [if_pos rfl, if_pos rfl]
    omega
  | false =>
    rw [BitVec.msb_eq_decide, decide_eq_false_iff_not] at hmsb
    rw [if_neg Bool.false_ne_true, if_neg Bool.false_ne_true]
    omega

omit [Bus P] in
/-- The carry of a comparison is right but for the 16-bit one with a negative
byte, where it is always set. -/
theorem carry_eq {form : CmpForm} {d : Width} (hd : form = .si2rm → d ≠ .b) {m : Machine P}
    (hdest : Fits d .dest m) (hsrc : if form = .si2rm then
      ∃ imm : Byte, m.val .src = imm.signExtend 32 else Fits d .src m) :
    (m.val .dest).ult (m.val .src) = (((m.val .dest).setWidth d.bits).ult
      ((m.val .src).setWidth d.bits) ||
        decide (form = .si2rm ∧ d = .w ∧ ((m.val .src).setWidth d.bits).msb = true)) := by
  have hfits : ∀ v : Word, v.toNat < 2 ^ d.bits → (v.setWidth d.bits).toNat = v.toNat := fun v hv => by
    rw [BitVec.toNat_setWidth, Nat.mod_eq_of_lt hv]
  by_cases hform : form = .si2rm
  · rw [if_pos hform] at hsrc
    obtain ⟨imm, himm⟩ := hsrc
    cases d with
    | b => exact absurd rfl (hd hform)
    | w =>
      rw [himm, ult_signExtend_byte hdest imm]
      refine congrArg (Bool.or _) ?_
      rw [Bool.eq_iff_iff, decide_eq_true_iff]
      exact ⟨fun h => ⟨hform, rfl, h⟩, fun h => h.2.2⟩
    | l =>
      have hl : ¬ (form = .si2rm ∧ Width.l = .w ∧ ((m.val .src).setWidth (Width.bits .l)).msb = true) :=
        fun h => nomatch h.2.1
      rw [decide_eq_false hl, Bool.or_false, BitVec.ult_eq_decide, BitVec.ult_eq_decide, hfits _ hdest,
        hfits _ (m.val .src).isLt]
  · rw [if_neg hform] at hsrc
    rw [decide_eq_false fun h => hform h.1, Bool.or_false, BitVec.ult_eq_decide,
      BitVec.ult_eq_decide, hfits _ hdest, hfits _ hsrc]

end Cmp

end Nemu
