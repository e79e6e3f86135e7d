/-
# Double shifts

`shrd` of an immediate moves one bit in each round of a loop, from the low end of
the register to the high end of the other operand. A round halves the two of them
taken as one number, so that after the loop the operand is the low half of the
number divided by a power of two. The decoder is the one of `imul`: the operand is
`op_src2`, the register is `op_dest`, and is not written, unless it is the operand.

Key definitions: `pair`, `Machine.inRm`.
Key theorems: `shrdStep_pair`, `shrdLoop_eq`, `decodeSiRm2r_ok`, `shrdi_ok`.
-/
import Nemu.Cpu.Multiply

namespace Nemu

open Bytes Cmd Instr WordMem

set_option synthInstance.maxSize 10000

/-! ### The loop -/

section Loop

variable {d : Width} {x : Word × Word}

/-- The two words as one number, the first of them the high one. -/
def pair (d : Width) (x : Word × Word) : ℕ := x.1.toNat * 2 ^ d.bits + x.2.toNat

theorem two_pow_bits (d : Width) : 2 ^ d.bits = 2 * 2 ^ (d.bits - 1) := by cases d <;> decide

/-- The bit that is moved is above the others. -/
theorem toNat_moved (d : Width) (v : Word) :
    (d.trunc ((v &&& 1) <<< (d.bits - 1))).toNat = 2 ^ (d.bits - 1) * (v.toNat % 2) := by
  have hbit : v.toNat % 2 * 2 ^ (d.bits - 1) < 2 ^ d.bits := by
    have hlt : v.toNat % 2 < 2 := Nat.mod_lt _ (by decide)
    rw [two_pow_bits]
    exact Nat.mul_lt_mul_of_pos_right hlt (Nat.two_pow_pos _)
  have hle : 2 ^ d.bits ≤ 2 ^ 32 := Nat.pow_le_pow_right (by decide) d.bits_le
  have hand : (v &&& 1).toNat = v.toNat % 2 := by
    rw [BitVec.toNat_and]
    exact Nat.and_one_is_mod _
  rw [Width.toNat_trunc, BitVec.toNat_shiftLeft, hand, Nat.shiftLeft_eq, Nat.mod_eq_of_lt (hbit.trans_le hle),
    Nat.mod_eq_of_lt hbit, Nat.mul_comm]

/-- What a round leaves, as numbers. -/
theorem toNat_shrdStep (h₂ : x.2.toNat < 2 ^ d.bits) : (shrdStep d x).1.toNat = x.1.toNat / 2 ∧
    (shrdStep d x).2.toNat = 2 ^ (d.bits - 1) * (x.1.toNat % 2) + x.2.toNat / 2 := by
  have hhalf : x.2.toNat / 2 < 2 ^ (d.bits - 1) := by
    rw [two_pow_bits] at h₂
    omega
  refine ⟨?_, ?_⟩
  · rw [shrdStep, BitVec.toNat_ushiftRight, Nat.shiftRight_eq_div_pow, pow_one]
  · rw [shrdStep, BitVec.toNat_or, BitVec.toNat_ushiftRight, Nat.shiftRight_eq_div_pow, pow_one, toNat_moved,
      Nat.or_comm, ← Nat.two_pow_add_eq_or_of_lt hhalf]

/-- **A round** halves the number. -/
theorem shrdStep_pair (h₂ : x.2.toNat < 2 ^ d.bits) :
    pair d (shrdStep d x) = pair d x / 2 ∧ (shrdStep d x).2.toNat < 2 ^ d.bits := by
  obtain ⟨hfst, hsnd⟩ := toNat_shrdStep h₂
  rw [pair, pair, hfst, hsnd]
  rw [two_pow_bits] at h₂ ⊢
  generalize x.1.toNat = a
  generalize x.2.toNat = b at h₂
  generalize 2 ^ (d.bits - 1) = h at h₂
  constructor
  · calc a / 2 * (2 * h) + (h * (a % 2) + b / 2)
        = (2 * (a / 2) + a % 2) * h + b / 2 := by ring
      _ = a * h + b / 2 := by rw [Nat.div_add_mod]
      _ = (2 * (a * h) + b) / 2 := (Nat.mul_add_div (by decide) _ _).symm
      _ = (a * (2 * h) + b) / 2 := by rw [Nat.mul_left_comm]
  · have hbit : a % 2 < 2 := Nat.mod_lt _ (by decide)
    have hmul : h * (a % 2) ≤ h * 1 := Nat.mul_le_mul_left h (Nat.le_of_lt_succ hbit)
    omega

/-- **The loop.** After `k` rounds the number is divided by `2 ^ k`. -/
theorem shrdLoop_pair (h₂ : x.2.toNat < 2 ^ d.bits) (k : ℕ) :
    pair d ((shrdStep d)^[k] x) = pair d x / 2 ^ k ∧ ((shrdStep d)^[k] x).2.toNat < 2 ^ d.bits := by
  induction k with
  | zero => exact ⟨by rw [Function.iterate_zero_apply, pow_zero, Nat.div_one], h₂⟩
  | succ k ih =>
    obtain ⟨hpair, hlt⟩ := ih
    obtain ⟨hstep, hlt'⟩ := shrdStep_pair hlt
    rw [Function.iterate_succ_apply']
    refine ⟨?_, hlt'⟩
    rw [hstep, hpair, Nat.div_div_eq_div_mul, pow_succ]

/-- What the loop leaves in `out`. -/
theorem shrdLoop_eq (h₂ : x.2.toNat < 2 ^ d.bits) (k : ℕ) :
    ((shrdStep d)^[k] x).2.toNat = pair d x / 2 ^ k % 2 ^ d.bits := by
  obtain ⟨hpair, hlt⟩ := shrdLoop_pair h₂ k
  rw [← hpair, pair, Nat.add_comm, Nat.add_mul_mod_self_right, Nat.mod_eq_of_lt hlt]

end Loop

/-! ### The instruction -/

section Shrd

variable {P : Type} [Bus P] [Ram P] {d : Width} {eip len : Word} {m m' m₁ : Machine P}

/-- What is in a register or in memory, where the record of the operand says. -/
def Machine.inRm (m : Machine P) (d : Width) (k : Slot) : Word :=
  if m.type k = .reg then m.reg d (bits02 (m.loc k)) else peek m.mem (m.place k) d.bytes

theorem HoldsRm.val_eq {k : Slot} (h : HoldsRm d k m) : m.val k = m.inRm d k := by
  unfold Machine.inRm
  rcases h with ⟨i, htype, hloc, hval⟩ | ⟨htype, hval⟩
  · rw [if_pos htype, hloc, bits02_regNo, hval]
  · rw [if_neg (by rw [htype]; decide), hval]

/-- A value that is written into an operand of the width is found there. -/
theorem writeOperand_inRm {k : Slot} {v : Word} (hsize : (m.operand k).size = d.bytes)
    (h : writeOperand d k v m = .ok () m') : m'.inRm d k = d.trunc v ∧ m'.ops = m.ops ∧
      ∀ i, (m.type k = .reg → m.loc k ≠ regNo i) → m'.reg d i = m.reg d i := by
  have h4 : d.bytes ≤ 4 := by cases d <;> decide
  rcases writeOperand_ok h with ⟨j, htype, hloc, rfl⟩ | ⟨htype, hwrite⟩
  · refine ⟨?_, rfl, fun i hi => ?_⟩
    · have htype' : (m.setReg d j v).type k = .reg := htype
      have hloc' : (m.setReg d j v).loc k = regNo j := hloc
      rw [Machine.inRm, if_pos htype', hloc', bits02_regNo]
      exact m.cpu.reg_setReg d j v
    · have hne : i ≠ j := by
        rintro rfl
        exact hi htype hloc
      exact CpuState.reg_setReg_ne m.cpu hne v
  · obtain ⟨hcpu, hops, -, hmem⟩ := swaddrWrite_mem hwrite
    have hop : m'.operand k = m.operand k := congrArg (fun o : Operands => o.operand k) hops
    have htype' : m'.type k ≠ .reg := by
      rw [Machine.type, hop]
      exact fun hreg => absurd (htype.symm.trans hreg) (by decide)
    have hplace : m'.place k = m.cpu.linear (m.loc k) (Fin.ofNat 6 (m.operand k).sreg) := by
      rw [Machine.place, Machine.loc, hop, hcpu]
      rfl
    refine ⟨?_, hops, fun i _ => reg_of_cpu hcpu d i⟩
    rw [Machine.inRm, if_neg htype', hplace, hmem, hsize, peek_poke_self _ _ _ h4, word_byte_trunc,
      Width.trunc_trunc]

/-- What the decoder leaves: the operand, the register in the field `reg`, and the
byte at the end. -/
structure SiRm2r (d : Width) (eip len : Word) (m m₁ : Machine P) : Prop where
  cpu : m₁.cpu = m.cpu
  mem : m₁.mem = m.mem
  rm : HoldsRm d .src2 m₁
  size : (m₁.operand .src2).size = d.bytes
  reg : m₁.loc .dest = regNo (bits35 (m.modRM eip))
  imm : m₁.val .src = Width.sext .b (peek m.mem (m.cpu.linear (eip + (len - 1)) 1) 1)

theorem decodeSiRm2r_ok (h : decodeSiRm2r d eip m = .ok len m₁) : SiRm2r d eip len m m₁ := by
  unfold decodeSiRm2r at h
  obtain ⟨n, m₀, hdec, h⟩ := bind_eq_ok h
  obtain ⟨n', m₂, hsi, h⟩ := bind_eq_ok h
  injection h with hlen hm
  subst hlen hm
  obtain ⟨rfl, himm⟩ := decodeSi_ok hsi
  have hne : Slot.src2 ≠ .dest := by decide
  have hcpu : m₀.cpu = m.cpu := cpu_of_keeps hdec
  have hmem : m₀.mem = m.mem := mem_of_keeps hdec
  have hsrc2 := himm.operand .src2 (by decide)
  have hdest := himm.operand .dest (by decide)
  have hsize : Ends (fun _ => SizeIs .src2 d.bytes) (fun _ => True) (decodeRmInternal d eip .src2 .dest m) :=
    decodeRmInternal_size d eip m
  rw [hdec] at hsize
  obtain ⟨-, hloc, -⟩ := decodeRmInternal_reg hne hdec
  refine ⟨himm.cpu.trans hcpu, himm.mem.trans hmem, ?_, ?_, ?_, ?_⟩
  · exact (decodeRmInternal_holds hne hdec).1.congr himm.cpu himm.mem hsrc2
  · rw [hsrc2]
    exact hsize
  · rw [Machine.loc, hdest]
    exact hloc
  · have hlen : n + Width.len .b - 1 = n := BitVec.add_sub_cancel n 1
    rw [himm.val, hmem, hcpu, hlen]
    rfl

omit [Ram P] in
theorem doShrd_run (m : Machine P) : doShrd d m = writeOperand d .src2
    ((shrdStep d)^[(Width.trunc .b (m.val .src) &&& 0x1f).toNat]
      (d.trunc (m.val .dest), d.trunc (m.val .src2))).2 m := rfl

theorem toNat_peek_one (f : Mem) (a : Word) : (peek f a 1).toNat < 256 := by
  have hbyte := Width.toNat_trunc_lt .b (peek f a 1)
  have htrunc : Width.trunc .b (peek f a 1) = peek f a 1 := trunc_peek .b f a
  rwa [htrunc] at hbyte

/-- The count is the low five bits of the byte. -/
theorem toNat_siCount (v : Word) (hv : v.toNat < 256) :
    (Width.trunc .b (Width.sext .b v) &&& 0x1f).toNat = v.toNat % 32 := by
  have hlow : Width.trunc .b (Width.sext .b v) = v := by
    have hbyte : (v.setWidth 8).toNat = v.toNat := by rw [BitVec.toNat_setWidth, Nat.mod_eq_of_lt hv]
    have hsext : (Width.sext .b v).toNat = _ := (toNat_signExtend_byte (v.setWidth 8)).1
    apply BitVec.eq_of_toNat_eq
    rw [Width.toNat_trunc, hsext, hbyte]
    have hbits : Width.bits .b = 8 := rfl
    rw [hbits]
    split <;> omega
  rw [hlow, BitVec.toNat_and]
  exact Nat.and_two_pow_sub_one_eq_mod v.toNat 5

/-- **The double shift.** The operand gets the low half of the register and the operand,
taken as one number and divided by a power of two; the register is left, unless it is
the operand. -/
theorem shrdi_ok {len' : Word} (hrun : shrdi d eip m = .ok len' m') : ∃ len m₁,
    decodeSiRm2r d (eip + 1) m = .ok len m₁ ∧ len' = len + 1 ∧ HoldsRm d .src2 m₁ ∧
      m'.operand .src2 = m₁.operand .src2 ∧
      (m'.inRm d .src2).toNat =
        ((m.reg d (bits35 (m.modRM (eip + 1)))).toNat * 2 ^ d.bits + (m₁.inRm d .src2).toNat) /
          2 ^ ((peek m.mem (m.cpu.linear (eip + len) 1) 1).toNat % 32) % 2 ^ d.bits ∧
      ((m₁.type .src2 = .reg → m₁.loc .src2 ≠ regNo (bits35 (m.modRM (eip + 1)))) →
        m'.reg d (bits35 (m.modRM (eip + 1))) = m.reg d (bits35 (m.modRM (eip + 1)))) := by
  unfold shrdi at hrun
  obtain ⟨len, m₁, hdec, hrun⟩ := bind_eq_ok hrun
  have hop := decodeSiRm2r_ok hdec
  have hcount := toNat_siCount _ (toNat_peek_one m.mem (m.cpu.linear (eip + len) 1))
  have hreg := hop.reg
  generalize bits35 (m.modRM (eip + 1)) = i at hreg ⊢
  have hi : (regNo i).toNat < 8 := by
    rw [regNo, BitVec.toNat_ofNat]
    omega
  have hsame : m₁.reg d i = m.reg d i := reg_of_cpu hop.cpu d i
  rw [read_bind_run, hreg, checkRegIndex, if_pos hi, bits02_regNo, pure_bind_run, read_bind_run,
    write_bind_run, hsame] at hrun
  obtain ⟨_, m₂, hexec, hend⟩ := bind_eq_ok hrun
  injection hend with hlen hm
  subst hlen hm
  rw [doShrd_run] at hexec
  have hsize : ((m₁.setVal .dest (m.reg d i)).operand .src2).size = d.bytes := hop.size
  obtain ⟨hin, hops, hother⟩ := writeOperand_inRm hsize hexec
  have hdest : (m₁.setVal .dest (m.reg d i)).val .dest = m.reg d i := by simp [Machine.val, Machine.setVal]
  have hsrc2 : (m₁.setVal .dest (m.reg d i)).val .src2 = m₁.inRm d .src2 := hop.rm.val_eq
  have hsrc : (m₁.setVal .dest (m.reg d i)).val .src =
      Width.sext .b (peek m.mem (m.cpu.linear (eip + len) 1) 1) := by
    have himm := hop.imm
    have haddr : eip + 1 + (len - 1) = eip + len := by
      rw [BitVec.add_assoc, BitVec.add_comm 1, BitVec.sub_add_cancel]
    rw [haddr] at himm
    exact himm
  have htrunc : d.trunc (m₁.inRm d .src2) = m₁.inRm d .src2 := by
    rw [← hop.rm.val_eq]
    exact hop.rm.trunc
  have hfits : (m₁.inRm d .src2).toNat < 2 ^ d.bits := htrunc ▸ d.toNat_trunc_lt _
  rw [hdest, hsrc2, hsrc, hcount, Width.trunc_of_lt (m.toNat_reg_lt d i), htrunc] at hin
  have hloop := shrdLoop_eq (x := (m.reg d i, m₁.inRm d .src2)) hfits
    ((peek m.mem (m.cpu.linear (eip + len) 1) 1).toNat % 32)
  refine ⟨len, m₁, hdec, rfl, hop.rm, ?_, ?_, fun hne => ?_⟩
  · exact (congrArg (fun o : Operands => o.operand .src2) hops).trans rfl
  · rw [hin, Width.toNat_trunc, hloop, Nat.mod_mod]
    rfl
  · exact (hother i hne).trans hsame

omit [Ram P] in
set_option maxRecDepth 20000 in
/-- Its opcode. -/
theorem shrd_table : entry (P := P) opcodeTable2 0xac = helperV shrdi := rfl

end Shrd

/-- `shrd $4,%ebx,%eax`, with these operands. -/
def shrdMachine : Machine FlatBus :=
  flatMachine (fun i => if i = 3 then 0x12345678 else 0x90abcdef) [0xac, 0xd8, 0x04]

/-- The low digit of `ebx` is moved to the high end of `eax`. -/
theorem shrdi_eax : ∃ m', shrdi .l 0 shrdMachine = .ok 3 m' ∧ m'.reg .l 3 = 0x12345678 ∧
    (m'.inRm .l .src2).toNat = (0x12345678 * 2 ^ 32 + 0x90abcdef) / 2 ^ 4 % 2 ^ 32 ∧
    m'.reg .l 0 = 0x890abcde := by
  have hrun := ok_stateD (show value (shrdi .l 0 shrdMachine) = some 3 by decide +kernel) shrdMachine
  have hdec := ok_stateD (show value (decodeSiRm2r .l 1 shrdMachine) = some 2 by decide +kernel) shrdMachine
  obtain ⟨len, m₁, hdec', -, -, -, hval, hreg⟩ := shrdi_ok hrun
  obtain ⟨rfl, rfl⟩ := Outcome.ok.inj (hdec'.symm.trans hdec)
  have hi : bits35 (shrdMachine.modRM (0 + 1)) = 3 := by decide +kernel
  rw [hi] at hval hreg
  refine ⟨_, hrun, (hreg fun _ => ?_).trans (by decide +kernel), hval.trans ?_, by decide +kernel⟩
  · decide +kernel
  · decide +kernel

/-- `shrd $4,%eax,%eax`. -/
def shrdSame : Machine FlatBus := flatMachine (fun _ => 0x12345678) [0xac, 0xc0, 0x04]

/-- The register is the operand, and is changed. -/
theorem shrdi_same : ∃ m₁ m', decodeSiRm2r .l 1 shrdSame = .ok 2 m₁ ∧ shrdi .l 0 shrdSame = .ok 3 m' ∧
    m₁.loc .dest = regNo 0 ∧ shrdSame.reg .l 0 = 0x12345678 ∧ m'.reg .l 0 = 0x81234567 := by
  have hrun := ok_stateD (show value (shrdi .l 0 shrdSame) = some 3 by decide +kernel) shrdSame
  have hdec := ok_stateD (show value (decodeSiRm2r .l 1 shrdSame) = some 2 by decide +kernel) shrdSame
  exact ⟨_, _, hdec, hrun, by decide +kernel, by decide +kernel, by decide +kernel⟩

end Nemu
