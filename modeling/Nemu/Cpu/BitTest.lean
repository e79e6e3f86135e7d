/-
# Bit tests

`bt` of a register takes the bit at the offset modulo the width. In memory the
operand is a bit string, of which the code takes bit `o % bits` of the word that
is `o / bits` bytes further on, for an unsigned offset `o`. With an immediate
offset the string is decoded into `op_src`, and what is tested is what an earlier
instruction left in `op_dest`.

Key definitions: `HoldsRm`, `tested`, `bitOffset`.
Key theorems: `decodeRmInternal_holds`, `doBt_ok`, `bit_test_iff`.
-/
import Nemu.Cpu.Ram
import Nemu.Cpu.Compare

namespace Nemu

open Bytes Cmd Instr WordMem

set_option synthInstance.maxSize 10000

section BitTest

variable {P : Type} [Bus P] [Ram P] {d : Width} {m m' : Machine P}

/-- Where an operand in memory is. -/
def Machine.place (m : Machine P) (k : Slot) : Word :=
  m.cpu.linear (m.loc k) (Fin.ofNat 6 (m.operand k).sreg)

/-- The operand in a register, with its value. -/
def HoldsReg (d : Width) (k : Slot) (m : Machine P) : Prop :=
  ∃ i, m.type k = .reg ∧ m.loc k = regNo i ∧ m.val k = m.reg d i

/-- The operand in a register or in memory, with its value. -/
def HoldsRm (d : Width) (k : Slot) (m : Machine P) : Prop :=
  HoldsReg d k m ∨ m.type k = .mem ∧ m.val k = peek m.mem (m.place k) d.bytes

/-- The record of an operand. -/
def OperandIs (k : Slot) (o : Operand) (m : Machine P) : Prop := m.operand k = o

section OperandIs

variable {k k' : Slot} {o : Operand}

omit [Bus P] [Ram P] in
theorem kept_setOperand (hne : k ≠ k') (f : Machine P → Operand) :
    Kept (OperandIs k o) fun m : Machine P => m.setOperand k' (f m) :=
  ⟨fun _ h => (Machine.operand_setOperand ..).trans ((if_neg hne).trans h)⟩

omit [Bus P] [Ram P] in
instance (b : P) : Kept (OperandIs k o) (Machine.setBus · b) := ⟨fun _ h => h⟩

variable [hne : Fact (k ≠ k')]

omit [Bus P] [Ram P] in
instance (n : ℕ) : Kept (OperandIs (P := P) k o) (Machine.setSize · k' n) := kept_setOperand hne.out _

omit [Bus P] [Ram P] in
instance : RmKept (OperandIs (P := P) k o) k' where
  setType _ := kept_setOperand hne.out _
  setLoc _ := kept_setOperand hne.out _
  setOpSreg _ := kept_setOperand hne.out _
  setVal _ := kept_setOperand hne.out _

omit [Bus P] [Ram P] in
instance : RegKept (OperandIs (P := P) k o) k' :=
  ⟨kept_setOperand hne.out _, fun _ => kept_setOperand hne.out _, fun _ => kept_setOperand hne.out _⟩

end OperandIs

theorem HoldsRm.setVal {k reg : Slot} (h : HoldsRm d k m) (hne : k ≠ reg) (v : Word) :
    HoldsRm d k (m.setVal reg v) := by
  have hop : (m.setVal reg v).operand k = m.operand k :=
    (Machine.operand_setOperand ..).trans (if_neg hne)
  unfold HoldsRm HoldsReg Machine.place Machine.type Machine.loc Machine.val at h ⊢
  rw [hop]
  exact h

omit [Ram P] in
/-- The address of an operand in memory. -/
theorem loadAddr_place {eip mod : Word} {k : Slot} {r : Word × Word}
    (h : loadAddr eip mod k m = .ok r m') :
    m'.type k = .mem ∧ m'.loc k = r.2 ∧ (m'.operand k).sreg = (m.operand k).sreg := by
  unfold loadAddr at h
  by_cases h3 : bits67 mod = 3
  · rw [if_pos h3] at h
    exact nomatch h
  · rw [if_neg h3] at h
    obtain ⟨sib, m₁, hsib, h⟩ := bind_eq_ok h
    obtain ⟨disp, m₂, hdisp, h⟩ := bind_eq_ok h
    injection h with hr hm
    subst hr hm
    have hop₁ : m₁.operand k = m.operand k :=
      Keeps.ok (I := OperandIs k (m.operand k)) hsib rfl
    have hop₂ : m₂.operand k = m.operand k :=
      Keeps.ok (I := OperandIs k (m.operand k)) hdisp hop₁
    refine ⟨?_, ?_, ?_⟩
    · simp [Machine.type, Machine.setLoc, Machine.setType]
    · simp [Machine.loc, Machine.setLoc]
    · simp [Machine.setLoc, Machine.setType, hop₂]

theorem readModRM_holds {eip : Word} {k reg : Slot} {r : Word × Fin 8}
    (h : readModRM d eip k reg m = .ok r m') : HoldsRm d k m' := by
  unfold readModRM at h
  obtain ⟨mod, m₁, -, h⟩ := bind_eq_ok h
  simp only [write_bind_run] at h
  by_cases h3 : bits67 mod = 3
  · rw [if_pos h3] at h
    injection h with _ h
    subst h
    refine .inl ⟨bits02 mod, ?_, ?_, ?_⟩
    · simp [Machine.type, Machine.setVal, Machine.setLoc, Machine.setType]
    · simp [Machine.loc, Machine.setVal, Machine.setLoc]
    · simp [Machine.val, Machine.setVal]
      rfl
  · rw [if_neg h3] at h
    obtain ⟨r, m₂, hload, h⟩ := bind_eq_ok h
    obtain ⟨v, m₃, hread, h⟩ := bind_eq_ok h
    injection h with _ h
    subst h
    obtain ⟨htype, hloc, hsreg⟩ := loadAddr_place hload
    obtain ⟨hcpu, hops, hmem, -, hv⟩ := swaddrRead_mem hread
    have hop : m₃.operand = m₂.operand := congrArg Operands.operand hops
    have hsreg' : (m₃.operand k).sreg = if bits35 mod = 5 ∨ bits35 mod = 4 then 2 else 3 := by
      rw [hop, hsreg]
      simp [Machine.setOpSreg]
    refine .inr ⟨?_, ?_⟩
    · rw [← htype, Machine.type, Machine.type, ← hop]
      simp [Machine.setVal]
    · have hplace : (m₃.setVal k v).place k = m₂.cpu.linear r.2
          (Fin.ofNat 6 (if bits35 mod = 5 ∨ bits35 mod = 4 then 2 else 3)) := by
        rw [← hsreg', ← hloc, ← hcpu, Machine.place, Machine.loc, Machine.loc, ← hop]
        simp [Machine.setVal]
        rfl
      rw [hplace, Machine.val_setVal, if_pos rfl, hv, ← hmem]
      rfl

omit [Ram P] in
/-- The register beside it. -/
theorem readModRM_reg {eip : Word} {k reg : Slot} {r : Word × Fin 8} (hne : reg ≠ k)
    (h : readModRM d eip k reg m = .ok r m') : m'.type reg = .reg ∧ m'.loc reg = regNo r.2 := by
  have : Fact (reg ≠ k) := ⟨hne⟩
  unfold readModRM at h
  obtain ⟨mod, m₁, -, h⟩ := bind_eq_ok h
  simp only [write_bind_run] at h
  by_cases h3 : bits67 mod = 3
  · rw [if_pos h3] at h
    injection h with hr hm
    subst hr hm
    simp [Machine.type, Machine.loc, Machine.setVal, Machine.setLoc, Machine.setType, Machine.setOpSreg, hne]
  · rw [if_neg h3] at h
    obtain ⟨r, m₂, hload, h⟩ := bind_eq_ok h
    obtain ⟨v, m₃, hread, h⟩ := bind_eq_ok h
    injection h with hr hm
    subst hr hm
    have hop₂ := Keeps.ok (I := OperandIs reg _) hload rfl
    have hop₃ := Keeps.ok (I := OperandIs reg _) hread hop₂
    unfold OperandIs at hop₃
    simp [Machine.type, Machine.loc, Machine.setVal, Machine.setLoc, Machine.setType, Machine.setOpSreg,
      hne, hop₃]

/-- **The operands of a ModRM byte**, as they are decoded. -/
theorem decodeRmInternal_holds {eip len : Word} {k reg : Slot} (hne : k ≠ reg)
    (h : decodeRmInternal d eip k reg m = .ok len m') : HoldsRm d k m' ∧ HoldsReg d reg m' := by
  unfold decodeRmInternal at h
  rw [write_bind_run] at h
  obtain ⟨r, m₁, hmodrm, h⟩ := bind_eq_ok h
  injection h with _ h
  subst h
  obtain ⟨htype, hloc⟩ := readModRM_reg hne.symm hmodrm
  refine ⟨(readModRM_holds hmodrm).setVal hne _, r.2, ?_, ?_, ?_⟩
  · rw [← htype]
    simp [Machine.type, Machine.setVal]
  · rw [← hloc]
    simp [Machine.loc, Machine.setVal]
  · rw [Machine.val_setVal, if_pos rfl]
    rfl

/-! ### The bit that is tested -/

/-- The index in the bit string that the code takes for offset `o`. -/
def bitIndex (d : Width) (o : ℕ) : ℤ := 8 * (o / d.bits : ℕ) + (o % d.bits : ℕ)

/-- The bit that the code takes. -/
def tested (d : Width) (o : ℕ) (m : Machine P) : Bool :=
  if m.type .dest = .reg then (m.val .dest).getLsbD (o % d.bits)
  else bitAt m.mem (m.place .dest) (bitIndex d o)

theorem doBt_ok (h : doBt d m = .ok () m') : m'.flag .CF = tested d (m.val .src).toNat m := by
  have h4 : d.bytes ≤ 4 := by cases d <;> decide
  unfold doBt at h
  rw [read_bind_run, read_bind_run] at h
  unfold tested
  by_cases htype : m.type .dest = .reg
  · rw [if_pos htype] at h ⊢
    injection h with _ h
    subst h
    simp
  · rw [if_neg htype] at h ⊢
    simp only [read_bind_run] at h
    obtain ⟨v, m₁, hread, hflag⟩ := bind_eq_ok h
    obtain ⟨-, -, -, -, hv⟩ := swaddrRead_mem hread
    injection hflag with _ hm
    subst hm
    have hlt : (m.val .src).toNat % d.bits < 8 * d.bytes := Nat.mod_lt _ d.bits_pos
    rw [Machine.flag_setFlag, if_pos rfl, hv, getLsbD_peek _ _ h4 hlt, CpuState.linear_add,
      ← BitVec.ofInt_natCast, bitAt_add, Machine.place, bitIndex]

/-- The offset in a register, signed. -/
def bitOffset (d : Width) (m : Machine P) : ℤ := ((m.val .src).setWidth d.bits).toInt

theorem ofInt_inj (a b : ℤ) : BitVec.ofInt 32 a = BitVec.ofInt 32 b ↔ a % 2 ^ 32 = b % 2 ^ 32 := by
  rw [← BitVec.toNat_inj, BitVec.toNat_ofInt, BitVec.toNat_ofInt]
  have ha := Int.emod_nonneg a (show ((2 ^ 32 : ℕ) : ℤ) ≠ 0 by norm_num)
  have hb := Int.emod_nonneg b (show ((2 ^ 32 : ℕ) : ℤ) ≠ 0 by norm_num)
  push_cast at ha hb ⊢
  omega

omit [Bus P] [Ram P] in
/-- An offset is tested at its own bit when it is less than the width. -/
theorem place_iff (hd : d ≠ .b) (hfit : Fits d .src m) :
    BitVec.ofInt 32 (bitIndex d (m.val .src).toNat / 8) = BitVec.ofInt 32 (bitOffset d m / 8) ↔
      (m.val .src).toNat < d.bits := by
  have hlow : ((m.val .src).setWidth d.bits).toNat = (m.val .src).toNat := by
    rw [BitVec.toNat_setWidth, Nat.mod_eq_of_lt hfit]
  unfold Fits at hfit
  rw [ofInt_inj, bitOffset, bitIndex, BitVec.toInt_eq_toNat_cond, hlow]
  generalize (m.val .src).toNat = o at hfit
  cases d with
  | b => exact absurd rfl hd
  | w =>
    have hbits : Width.bits .w = 16 := rfl
    rw [hbits] at hfit ⊢
    norm_num at hfit ⊢
    split_ifs <;> omega
  | l =>
    have hbits : Width.bits .l = 32 := rfl
    rw [hbits] at hfit ⊢
    norm_num at hfit ⊢
    have hcode : (8 * ((o : ℤ) / 32) + (o : ℤ) % 32) / 8 % 4294967296 =
        (o : ℤ) / 32 + (o : ℤ) % 32 / 8 := by omega
    rw [hcode]
    split_ifs with h
    · have hright : (o : ℤ) / 8 % 4294967296 = (o : ℤ) / 8 := by omega
      rw [hright]
      omega
    · have hright : ((o : ℤ) - 4294967296) / 8 % 4294967296 = (o : ℤ) / 8 + 3758096384 := by omega
      rw [hright]
      omega

omit [Bus P] [Ram P] in
/-- A small offset is the same number for the code. -/
theorem bitIndex_of_lt (h : (m.val .src).toNat < d.bits) : bitIndex d (m.val .src).toNat = bitOffset d m := by
  have hsmall : 2 * d.bits ≤ 2 ^ d.bits := by cases d <;> decide
  have hlow : ((m.val .src).setWidth d.bits).toNat = (m.val .src).toNat := by
    rw [BitVec.toNat_setWidth, Nat.mod_eq_of_lt (by omega)]
  rw [bitIndex, bitOffset, BitVec.toInt_eq_toNat_of_lt (by omega), hlow, Nat.div_eq_of_lt h, Nat.mod_eq_of_lt h]
  norm_num

section Immediate

variable {eip len : Word}

/-- The immediate is the byte that follows. -/
theorem decodeI_byte (h : decodeI .b eip m = .ok len m') :
    m'.val .src = peek m.mem (m.cpu.linear eip 1) 1 := by
  unfold decodeI at h
  rw [write_bind_run] at h
  obtain ⟨v, m₁, hfetch, h⟩ := bind_eq_ok h
  injection h with _ hm
  subst hm
  obtain ⟨-, -, -, -, hv⟩ := swaddrRead_mem hfetch
  rw [Machine.val_setVal, if_pos rfl, hv]
  rfl

omit [Ram P] in
/-- The decoders of `op_src` leave `op_dest`. -/
theorem decodeRm_dest (h : decodeRm d eip m = .ok len m') : m'.operand .dest = m.operand .dest := by
  have hsrc : Fact (Slot.dest ≠ .src) := ⟨by decide⟩
  have hsrc2 : Fact (Slot.dest ≠ .src2) := ⟨by decide⟩
  have hkeeps : Keeps (OperandIs (P := P) .dest (m.operand .dest)) (decodeRm d eip) := by
    unfold decodeRm decodeRmInternal
    infer_instance
  exact Keeps.ok (I := OperandIs .dest _) h rfl

omit [Ram P] in
theorem decodeI_dest (h : decodeI .b eip m = .ok len m') : m'.operand .dest = m.operand .dest := by
  have hsrc : Fact (Slot.dest ≠ .src) := ⟨by decide⟩
  have hkeeps : Keeps (OperandIs (P := P) .dest (m.operand .dest)) (decodeI .b eip) := by
    unfold decodeI
    infer_instance
  exact Keeps.ok (I := OperandIs .dest _) h rfl

/-- What is tested depends on the destination, the registers and memory. -/
theorem tested_congr (hop : m'.operand .dest = m.operand .dest) (hcpu : m'.cpu = m.cpu)
    (hmem : m'.mem = m.mem) (o : ℕ) : tested d o m' = tested d o m := by
  unfold tested Machine.place Machine.type Machine.val Machine.loc
  rw [hop, hcpu, hmem]

end Immediate

/-- **Bit tests.** A register gives the bit at the offset. In memory it is that of the
bit string if and only if the offset is less than the width, or the bit in the wrong
place is the same; the place is right for such offsets only. With an immediate
offset it is if and only if the operand that was left in `op_dest` has the same bit. -/
theorem bit_test_iff (hd : d ≠ .b) :
    (∀ (eip len : Word) (m m₁ m' : Machine P), decodeR2rm d (eip + 1) m = .ok len m₁ →
      btR2rm d eip m = .ok (1 + len) m' →
      HoldsRm d .dest m₁ ∧ HoldsReg d .src m₁ ∧
      (m₁.type .dest = .reg → m'.flag .CF = (m₁.val .dest).getLsbD ((m₁.val .src).toNat % d.bits)) ∧
      (m₁.type .dest = .mem →
        (m'.flag .CF = bitAt m.mem (m₁.place .dest) (bitOffset d m₁) ↔
          (m₁.val .src).toNat < d.bits ∨
            bitAt m.mem (m₁.place .dest) (bitIndex d (m₁.val .src).toNat) =
              bitAt m.mem (m₁.place .dest) (bitOffset d m₁)) ∧
        (BitVec.ofInt 32 (bitIndex d (m₁.val .src).toNat / 8) = BitVec.ofInt 32 (bitOffset d m₁ / 8) ↔
          (m₁.val .src).toNat < d.bits))) ∧
    ∀ (eip len len' : Word) (m m₁ m₂ m' : Machine P), decodeRm d (eip + 1) m = .ok len m₁ →
      decodeI .b (eip + 1 + len) m₁ = .ok len' m₂ → btI2rm d eip m = .ok (1 + (len + len')) m' →
      HoldsRm d .src m₁ ∧ m₂.val .src = peek m.mem (m.cpu.linear (eip + 1 + len) 1) 1 ∧
      (m'.flag .CF = (m₁.val .src).getLsbD ((m₂.val .src).toNat % d.bits) ↔
        tested d (m₂.val .src).toNat m = (m₁.val .src).getLsbD ((m₂.val .src).toNat % d.bits)) := by
  refine ⟨fun eip len m m₁ m' hdec hrun => ?_, fun eip len len' m m₁ m₂ m' hdec himm hrun => ?_⟩
  · obtain ⟨hdest, hsrc⟩ := decodeRmInternal_holds (show Slot.dest ≠ .src by decide) hdec
    have hmem : m₁.mem = m.mem := mem_of_keeps hdec
    have hfit := decodeRmInternal_ends d (eip + 1) (show Slot.dest ≠ .src by decide) m
    rw [show decodeRmInternal d (eip + 1) .dest .src m = .ok len m₁ from hdec] at hfit
    unfold btR2rm at hrun
    rw [bind_ok hdec] at hrun
    obtain ⟨_, m₂, hbt, hm⟩ := bind_eq_ok hrun
    injection hm with _ hm
    subst hm
    have hcf := doBt_ok hbt
    refine ⟨hdest, hsrc, fun htype => ?_, fun htype => ⟨?_, place_iff hd hfit.2⟩⟩
    · rw [hcf, tested, if_pos htype]
    · rw [hcf, tested, if_neg (by rw [htype]; decide), hmem]
      exact ⟨.inr, fun h => h.elim (fun hlt => by rw [bitIndex_of_lt hlt]) id⟩
  · obtain ⟨hsrc, -⟩ := decodeRmInternal_holds (show Slot.src ≠ .src2 by decide) hdec
    have hcpu₁ : m₁.cpu = m.cpu := cpu_of_keeps hdec
    have hmem₁ : m₁.mem = m.mem := mem_of_keeps hdec
    have hcpu₂ : m₂.cpu = m₁.cpu := cpu_of_keeps himm
    have hmem₂ : m₂.mem = m₁.mem := mem_of_keeps himm
    have hval := decodeI_byte himm
    rw [hmem₁, hcpu₁] at hval
    unfold btI2rm at hrun
    rw [bind_ok hdec, bind_ok himm] at hrun
    obtain ⟨_, m₃, hbt, hm⟩ := bind_eq_ok hrun
    injection hm with _ hm
    subst hm
    have hdest : m₂.operand .dest = m.operand .dest := (decodeI_dest himm).trans (decodeRm_dest hdec)
    have hcf := doBt_ok hbt
    rw [tested_congr hdest (hcpu₂.trans hcpu₁) (hmem₂.trans hmem₁)] at hcf
    refine ⟨hsrc, hval, ?_⟩
    rw [hcf]

omit [Ram P] in
set_option maxRecDepth 20000 in
/-- Their opcodes. -/
theorem bt_tables : entry (P := P) opcodeTable2 0xa3 = helperV btR2rm ∧
    entry (P := P) opcodeTable2 0xba = helperV btI2rm := ⟨rfl, rfl⟩

end BitTest

/-- `bt %eax,%eax` of 37. -/
def btMachine : Machine FlatBus := flatMachine (fun _ => 37) [0xa3, 0xc0]

/-- It takes bit 5. -/
theorem bit_test_eax : ∃ m', btR2rm .l 0 btMachine = .ok 2 m' ∧ m'.flag .CF = true := by
  have hdec := ok_stateD (show value (decodeR2rm .l 1 btMachine) = some 1 by decide +kernel) btMachine
  have hrun := ok_stateD (show value (btR2rm .l 0 btMachine) = some (1 + 1) by decide +kernel) btMachine
  obtain ⟨-, -, hcf, -⟩ := (bit_test_iff (d := .l) (by decide)).1 0 1 _ _ _ hdec hrun
  exact ⟨_, hrun, (hcf (by decide +kernel)).trans (by decide +kernel)⟩

/-- `bt %eax,0x10` with 32 in `eax`, for a bit string of which bit 8 is set. -/
def btString : Machine FlatBus :=
  flatMachine (fun _ => 32) [0xa3, 0x05, 0x10, 0, 0, 0, 0, 0, 0, 0, 0, 0, 0, 0, 0, 0, 0, 1]

/-- `bt $0,%eax` with 1 in `eax`, after reset. -/
def btImm : Machine FlatBus := flatMachine (fun _ => 1) [0xba, 0xe0, 0x00]

/-- The first takes bit 8 for bit 32, and the second does not see `eax`. -/
theorem bit_test_wrong :
    (∃ m₁ m', decodeR2rm .l 1 btString = .ok 5 m₁ ∧ btR2rm .l 0 btString = .ok 6 m' ∧
      bitOffset .l m₁ = 32 ∧ m'.flag .CF = true ∧
      bitAt btString.mem (m₁.place .dest) (bitOffset .l m₁) = false) ∧
    ∃ m₁ m₂ m', decodeRm .l 1 btImm = .ok 1 m₁ ∧ decodeI .b 2 m₁ = .ok 1 m₂ ∧
      btI2rm .l 0 btImm = .ok 3 m' ∧ m'.flag .CF = false ∧
      (m₁.val .src).getLsbD ((m₂.val .src).toNat % 32) = true := by
  refine ⟨?_, ?_⟩
  · have hdec := ok_stateD (show value (decodeR2rm .l 1 btString) = some 5 by decide +kernel) btString
    have hrun := ok_stateD (show value (btR2rm .l 0 btString) = some 6 by decide +kernel) btString
    exact ⟨_, _, hdec, hrun, by decide +kernel, by decide +kernel, by decide +kernel⟩
  · have hdec := ok_stateD (show value (decodeRm .l 1 btImm) = some 1 by decide +kernel) btImm
    have himm := ok_stateD (show value (decodeI .b 2 (stateD btImm (decodeRm .l 1 btImm))) = some 1 by
      decide +kernel) btImm
    have hrun := ok_stateD (show value (btI2rm .l 0 btImm) = some 3 by decide +kernel) btImm
    exact ⟨_, _, _, hdec, himm, hrun, by decide +kernel, by decide +kernel⟩

end Nemu
