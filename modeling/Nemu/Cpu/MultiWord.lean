/-
# Multi-word arithmetic

`add` on limb 0 and `adc` on the others, or `sub` and `sbb`, with whatever keeps
the carry flag between them. The carry of `adc` and the borrow of `sbb` are
found by comparing, so they are lost when a limb of the second number is all
ones and there is a carry into it; the borrow of the 16-bit `sub` with a
sign-extended byte is that of `cmp`. These are the only cases in which the limbs
or the last carry are wrong.

Key definitions: `LimbExec`, `LimbRun`, `Miscarries`.
Key theorems: `firstLimb_run`, `nextLimb_run`, `limbRun_exact_iff`.
-/
import Nemu.Cpu.Compare
import Nemu.Cpu.Frame
import Nemu.Lib.Limbs

namespace Nemu

open Bytes Cmd Instr Limbs

section MultiWord

variable {P : Type} [Bus P] {d : Width}

/-- The instruction for the lowest limb. -/
def firstLimb (op : Op) (d : Width) : Cmd (Machine P) Unit :=
  match op with
  | .add => doAdd d
  | .sub => doSub d

/-- The instruction for the limbs after it. -/
def nextLimb (op : Op) (d : Width) : Cmd (Machine P) Unit :=
  match op with
  | .add => doAdc d
  | .sub => doSbb d

/-- An instruction has the opcodes from `opcode` on and this index in group 1;
its forms are those of `cmp`. -/
def InTables (exec : Helper P) (fuel opcode index : ℕ) (exe : Width → Cmd (Machine P) Unit) : Prop :=
  let helper := fun (form : CmpForm) d => idex (form.decode d) (exe d)
  entry (opcodeTable exec fuel) opcode = helper .r2rm .b ∧
  entry (opcodeTable exec fuel) (opcode + 1) = helperV (helper .r2rm) ∧
  entry (opcodeTable exec fuel) (opcode + 2) = helper .rm2r .b ∧
  entry (opcodeTable exec fuel) (opcode + 3) = helperV (helper .rm2r) ∧
  entry (opcodeTable exec fuel) (opcode + 4) = helper .i2a .b ∧
  entry (opcodeTable exec fuel) (opcode + 5) = helperV (helper .i2a) ∧
  entry group1B index = helper .i2rm .b ∧
  entry group1V index = helperV (helper .i2rm) ∧
  entry group1SxV index = helperV (helper .si2rm)

/-- The opcodes of the four instructions. -/
theorem limb_tables (exec : Helper P) (fuel : ℕ) :
    InTables exec fuel 0x00 0 (firstLimb .add) ∧ InTables exec fuel 0x10 2 (nextLimb .add) ∧
    InTables exec fuel 0x28 5 (firstLimb .sub) ∧ InTables exec fuel 0x18 3 (nextLimb .sub) :=
  ⟨⟨rfl, rfl, rfl, rfl, rfl, rfl, rfl, rfl, rfl⟩, ⟨rfl, rfl, rfl, rfl, rfl, rfl, rfl, rfl, rfl⟩,
    ⟨rfl, rfl, rfl, rfl, rfl, rfl, rfl, rfl, rfl⟩, ⟨rfl, rfl, rfl, rfl, rfl, rfl, rfl, rfl, rfl⟩⟩

/-! ### One limb -/

omit [Bus P] in
/-- The flags are computed from the operands and the result only. -/
theorem setAddFlags_ok {dest src result : Word} {m m' : Machine P}
    (h : setAddFlags d dest src result m = .ok () m') :
    m'.flag .CF = result.ult dest ∧ m'.cpu.gpr = m.cpu.gpr ∧ m'.bus = m.bus := by
  injection h with _ h
  subst h
  exact ⟨by simp, rfl, rfl⟩

omit [Bus P] in
theorem setSubFlags_ok {carry : Bool} {dest src result : Word} {m m' : Machine P}
    (h : setSubFlags d carry dest src result m = .ok () m') :
    m'.flag .CF = carry ∧ m'.cpu.gpr = m.cpu.gpr ∧ m'.bus = m.bus := by
  injection h with _ h
  subst h
  exact ⟨by simp, rfl, rfl⟩

/-- What an instruction for a limb does from the decoded operands: the result is
stored, and the carry is this one. -/
structure LimbDone (d : Width) (m m' : Machine P) (result : Word) (carry : Bool) : Prop where
  stored : Stored d .dest (d.trunc result) m m'
  flag : m'.flag .CF = carry

/-- `DATA_TYPE src` of `sbb`. -/
def sbbSrc (d : Width) (m : Machine P) : Word :=
  d.trunc (d.trunc (m.val .src) + if m.flag .CF then 1 else 0)

/-- A result is stored, and then the flags are set. -/
theorem LimbDone.of_run {result : Word} {carry : Bool} {flags : Cmd (Machine P) Unit} {m m' : Machine P}
    (hset : ∀ {m₁ m₂}, flags m₁ = .ok () m₂ →
      m₂.flag .CF = carry ∧ m₂.cpu.gpr = m₁.cpu.gpr ∧ m₂.bus = m₁.bus)
    (h : (do writeOperand d .dest (d.trunc result); flags) m = .ok () m') :
    LimbDone d m m' result carry := by
  obtain ⟨_, m₂, hwrite, hflags⟩ := bind_eq_ok h
  have hstored := (writeOperand_stored hwrite).1
  rw [Width.trunc_trunc] at hstored
  obtain ⟨hcf, hgpr, hbus⟩ := hset hflags
  exact ⟨hstored.after hgpr hbus, hcf⟩

theorem doAdd_ok {m m' : Machine P} (h : doAdd d m = .ok () m') :
    LimbDone d m m' (m.val .dest + m.val .src)
      ((d.trunc (m.val .dest + m.val .src)).ult (m.val .dest)) := by
  unfold doAdd at h
  simp only [read_bind_run] at h
  exact .of_run setAddFlags_ok h

theorem doAdc_ok {m m' : Machine P} (h : doAdc d m = .ok () m') :
    LimbDone d m m' (m.val .dest + m.val .src + if m.flag .CF then 1 else 0)
      ((d.trunc (m.val .dest + m.val .src + if m.flag .CF then 1 else 0)).ult (m.val .dest)) := by
  unfold doAdc at h
  simp only [read_bind_run] at h
  exact .of_run setAddFlags_ok h

theorem doSub_ok {m m' : Machine P} (h : doSub d m = .ok () m') :
    LimbDone d m m' (m.val .dest - m.val .src) ((m.val .dest).ult (m.val .src)) := by
  unfold doSub at h
  simp only [read_bind_run] at h
  exact .of_run setSubFlags_ok h

theorem doSbb_ok {m m' : Machine P} (h : doSbb d m = .ok () m') :
    LimbDone d m m' (m.val .dest - sbbSrc d m) ((m.val .dest).ult (sbbSrc d m)) := by
  unfold doSbb at h
  simp only [read_bind_run, write_bind_run] at h
  have hdone := LimbDone.of_run setSubFlags_ok h
  refine ⟨?_, hdone.flag⟩
  -- the write does not look at the changed `op_src->val`
  cases hdone.stored with
  | reg i htype hloc hreg => exact .reg i htype hloc hreg
  | mem htype hwrite => exact .mem htype hwrite

/-! ### As numbers -/

theorem pow_bits_dvd (d : Width) : 2 ^ d.bits ∣ 2 ^ 32 := Nat.pow_dvd_pow 2 d.bits_le

/-- The carry flag as a word. -/
theorem toNat_carry (c : Bool) : (if c then 1 else 0 : Word).toNat = c.toNat := by
  cases c <;> rfl

theorem toNat_trunc_add (d : Width) (x y : Word) (c : Bool) :
    (d.trunc (x + y + if c then 1 else 0)).toNat =
      Op.add.digit (2 ^ d.bits) (x.setWidth d.bits).toNat (y.setWidth d.bits).toNat c := by
  rw [Width.toNat_trunc, BitVec.toNat_add, BitVec.toNat_add, toNat_carry,
    Nat.mod_mod_of_dvd _ (pow_bits_dvd d), Nat.add_mod, Nat.mod_mod_of_dvd _ (pow_bits_dvd d),
    ← Nat.add_mod, BitVec.toNat_setWidth, BitVec.toNat_setWidth, Op.digit]
  simp only [Nat.add_mod, Nat.mod_mod]

omit [Bus P] in
theorem toNat_sbbSrc (d : Width) (m : Machine P) :
    (sbbSrc d m).toNat =
      (((m.val .src).setWidth d.bits).toNat + (m.flag .CF).toNat) % 2 ^ d.bits := by
  rw [sbbSrc, Width.toNat_trunc, BitVec.toNat_add, toNat_carry, Nat.mod_mod_of_dvd _ (pow_bits_dvd d),
    Width.toNat_trunc, BitVec.toNat_setWidth]

/-- A difference modulo the width. -/
theorem toNat_trunc_sub (d : Width) (x y : Word) {b : ℕ} {c : Bool} (hb : b < 2 ^ d.bits)
    (hy : y.toNat % 2 ^ d.bits = (b + c.toNat) % 2 ^ d.bits) :
    (d.trunc (x - y)).toNat = Op.sub.digit (2 ^ d.bits) (x.setWidth d.bits).toNat b c := by
  have hle : 2 ^ d.bits ≤ 2 ^ 32 := Nat.pow_le_pow_right (by norm_num) d.bits_le
  have hc := Bool.toNat_le c
  have hx := (x.setWidth d.bits).isLt
  have hlt : (x.setWidth d.bits - y.setWidth d.bits).toNat < 2 ^ 32 :=
    (BitVec.isLt _).trans_le hle
  rw [Width.trunc_sub, BitVec.toNat_setWidth, Nat.mod_eq_of_lt hlt, BitVec.toNat_sub,
    BitVec.toNat_setWidth (x := y), hy, Op.digit]
  set V := 2 ^ d.bits
  rcases Nat.lt_or_ge (b + c.toNat) V with h | h
  · rw [Nat.mod_eq_of_lt h]
    congr 1
    omega
  · have hV : b + c.toNat = V := by omega
    rw [hV, Nat.mod_self, Nat.sub_zero, Nat.add_sub_cancel_left, Nat.add_mod_left]

/-! ### Runs -/

/-- The execution of an instruction for a limb. -/
structure LimbExec (P : Type) (d : Width) where
  form : CmpForm
  before : Machine P
  decoded : Machine P
  after : Machine P

namespace LimbExec

/-- The execution of `exe` in this form from a machine. -/
def of (exe : Cmd (Machine P) Unit) (form : CmpForm) (eip : Word) (m : Machine P) : LimbExec P d where
  form := form
  before := m
  decoded := stateD m (form.decode d (eip + 1) m)
  after := stateD m (idex (form.decode d) exe eip m)

/-- The limb of the first number. -/
def a (e : LimbExec P d) : BitVec d.bits := (e.decoded.val .dest).setWidth d.bits

/-- The limb of the second number. -/
def b (e : LimbExec P d) : BitVec d.bits := (e.decoded.val .src).setWidth d.bits

/-- It is an execution of `exe` in one of its forms. -/
structure Runs (exe : Cmd (Machine P) Unit) (e : LimbExec P d) : Prop where
  form_ok : e.form = .si2rm → d ≠ .b
  runs : ∃ eip len, e.form.decode d (eip + 1) e.before = .ok len e.decoded ∧
    idex (e.form.decode d) exe eip e.before = .ok (len + 1) e.after

end LimbExec

/-- A multi-word operation: the first limb, then the others, each with the carry
flag that the one before it left. It ends in a machine. -/
inductive LimbRun (op : Op) : List (LimbExec P d) → Machine P → Prop where
  | first {e : LimbExec P d} (he : e.Runs (firstLimb op d)) : LimbRun op [e] e.after
  | next {es : List (LimbExec P d)} {m : Machine P} {e : LimbExec P d} (h : LimbRun op es m)
      (hcf : e.before.flag .CF = m.flag .CF) (he : e.Runs (nextLimb op d)) :
      LimbRun op (es ++ [e]) e.after

/-- The limbs of the first number. -/
def limbsA (es : List (LimbExec P d)) : List ℕ := es.map fun e => e.a.toNat

/-- The limbs of the second number. -/
def limbsB (es : List (LimbExec P d)) : List ℕ := es.map fun e => e.b.toNat

/-- The limb after `es` leaves the wrong carry. -/
def Miscarries (op : Op) (es : List (LimbExec P d)) (e : LimbExec P d) : Prop :=
  if es = [] then op = .sub ∧ e.form = .si2rm ∧ d = .w ∧ e.b.msb = true ∧ e.b.ule e.a = true
  else e.b = BitVec.allOnes d.bits ∧
    op.carry (2 ^ (d.bits * es.length)) (Nat.ofDigits (2 ^ d.bits) (limbsA es))
      (Nat.ofDigits (2 ^ d.bits) (limbsB es)) false = true

instance {J : CpuState → Prop} (form : CmpForm) (d : Width) (eip : Word) :
    Keeps (OnCpu (P := P) J) (form.decode d eip) := by
  cases form <;>
  · unfold CmpForm.decode
    infer_instance

/-- The decoded operands of an execution. -/
theorem LimbExec.Runs.decode {exe : Cmd (Machine P) Unit} {e : LimbExec P d} (he : e.Runs exe) :
    exe e.decoded = .ok () e.after ∧ e.decoded.flag .CF = e.before.flag .CF ∧ Fits d .dest e.decoded ∧
      if e.form = .si2rm then ∃ imm : Byte, e.decoded.val .src = imm.signExtend 32
      else Fits d .src e.decoded := by
  obtain ⟨eip, len, hdecode, hrun⟩ := he.runs
  have hfits := e.form.decode_ends d (eip + 1) e.before
  have hkeeps : Keeps (OnCpu (P := P) fun c => c.flag .CF = e.before.flag .CF)
      (e.form.decode d (eip + 1)) := inferInstance
  have hcf := hkeeps.ends e.before rfl
  rw [hdecode] at hfits hcf
  exact ⟨exec_of_idex hdecode hrun, hcf, hfits⟩

section Step

variable {op : Op} {e : LimbExec P d}

omit [Bus P] in
theorem toNat_a (h : Fits d .dest e.decoded) : e.a.toNat = (e.decoded.val .dest).toNat := by
  rw [LimbExec.a, BitVec.toNat_setWidth, Nat.mod_eq_of_lt h]

omit [Bus P] in
theorem eq_allOnes_iff : e.b = BitVec.allOnes d.bits ↔ e.b.toNat + 1 = 2 ^ d.bits := by
  have hlt := e.b.isLt
  rw [← BitVec.toNat_inj, BitVec.toNat_allOnes]
  omega

/-- **The lowest limb.** The digit is stored, and the carry is right but for the
16-bit `sub` of a negative byte. -/
theorem firstLimb_run (he : e.Runs (firstLimb op d)) : ∃ r : Word,
    Stored d .dest r e.decoded e.after ∧
    r.toNat = op.digit (2 ^ d.bits) e.a.toNat e.b.toNat false ∧
    (e.after.flag .CF = op.carry (2 ^ d.bits) e.a.toNat e.b.toNat false ↔ ¬ Miscarries op [] e) := by
  obtain ⟨hexe, -, hdest, hsrc⟩ := he.decode
  rw [Miscarries, if_pos rfl]
  cases op with
  | add =>
    obtain ⟨hstored, hflag⟩ := doAdd_ok hexe
    have hdigit := toNat_trunc_add d (e.decoded.val .dest) (e.decoded.val .src) false
    simp only [Bool.false_eq_true, if_false, BitVec.ofNat_eq_ofNat, BitVec.add_zero] at hdigit
    refine ⟨_, hstored, hdigit, ?_⟩
    refine iff_of_true ?_ fun h => nomatch h.1
    rw [hflag, BitVec.ult_eq_decide, hdigit, ← toNat_a hdest]
    exact (add_compare_iff e.a.isLt e.b.isLt).mpr fun h => nomatch h.1
  | sub =>
    obtain ⟨hstored, hflag⟩ := doSub_ok hexe
    have hcarry := carry_eq he.form_ok hdest hsrc
    refine ⟨_, hstored, toNat_trunc_sub d _ _ e.b.isLt ?_, ?_⟩
    · rw [LimbExec.b, BitVec.toNat_setWidth, Bool.toNat_false, Nat.add_zero, Nat.mod_mod]
    · change e.after.flag .CF = decide (e.a.toNat < e.b.toNat) ↔ _
      rw [hflag, hcarry, ← BitVec.ult_eq_decide, BitVec.ule_eq_not_ult e.b e.a]
      change (e.a.ult e.b || decide (e.form = .si2rm ∧ d = .w ∧ e.b.msb = true)) = e.a.ult e.b ↔ _
      cases e.a.ult e.b <;> simp

/-- **The limbs after it.** The digit is stored, and the carry is right unless
the limb of the second number is all ones and there is a carry in. -/
theorem nextLimb_run (he : e.Runs (nextLimb op d)) : ∃ r : Word,
    Stored d .dest r e.decoded e.after ∧
    r.toNat = op.digit (2 ^ d.bits) e.a.toNat e.b.toNat (e.before.flag .CF) ∧
    (e.after.flag .CF = op.carry (2 ^ d.bits) e.a.toNat e.b.toNat (e.before.flag .CF) ↔
      ¬ (e.before.flag .CF = true ∧ e.b = BitVec.allOnes d.bits)) := by
  obtain ⟨hexe, hcf, hdest, -⟩ := he.decode
  rw [eq_allOnes_iff, ← hcf]
  cases op with
  | add =>
    obtain ⟨hstored, hflag⟩ := doAdc_ok hexe
    have hdigit := toNat_trunc_add d (e.decoded.val .dest) (e.decoded.val .src) (e.decoded.flag .CF)
    refine ⟨_, hstored, hdigit, ?_⟩
    rw [hflag, BitVec.ult_eq_decide, hdigit, ← toNat_a hdest]
    exact add_compare_iff e.a.isLt e.b.isLt
  | sub =>
    obtain ⟨hstored, hflag⟩ := doSbb_ok hexe
    have hsrc := toNat_sbbSrc d e.decoded
    refine ⟨_, hstored, toNat_trunc_sub d _ _ e.b.isLt ?_, ?_⟩
    · rw [hsrc, Nat.mod_mod]
      rfl
    · rw [hflag, BitVec.ult_eq_decide, hsrc, ← toNat_a hdest]
      exact sub_compare_iff e.a.isLt e.b.isLt

end Step

/-! ### The whole number -/

section Run

variable {op : Op} {es : List (LimbExec P d)} {m : Machine P}

omit [Bus P] in
theorem limbsA_lt : ∀ x ∈ limbsA es, x < 2 ^ d.bits := by
  intro x hx
  obtain ⟨e, -, rfl⟩ := List.mem_map.mp hx
  exact e.a.isLt

omit [Bus P] in
theorem limbsB_lt : ∀ x ∈ limbsB es, x < 2 ^ d.bits := by
  intro x hx
  obtain ⟨e, -, rfl⟩ := List.mem_map.mp hx
  exact e.b.isLt

theorem one_lt_base (d : Width) : 1 < 2 ^ d.bits := Nat.one_lt_two_pow d.bits_pos.ne'

/-- **Multi-word arithmetic.** The stored words are the limbs of the sum or of
the difference, and the carry flag is its carry, if and only if no limb leaves
the wrong carry. -/
theorem limbRun_exact_iff (h : LimbRun op es m) : ∃ rs : List Word,
    List.Forall₂ (fun e r => Stored d .dest r e.decoded e.after) es rs ∧
    (Exact op (2 ^ d.bits) (limbsA es) (limbsB es) (rs.map BitVec.toNat) (m.flag .CF) ↔
      ∀ pre e, pre ++ [e] <+: es → ¬ Miscarries op pre e) := by
  -- the limbs stored are below the base, so that they show a wrong carry
  suffices hs : ∃ rs : List Word, es ≠ [] ∧
      List.Forall₂ (fun e r => Stored d .dest r e.decoded e.after) es rs ∧
      (∀ x ∈ rs.map BitVec.toNat, x < 2 ^ d.bits) ∧
      (Exact op (2 ^ d.bits) (limbsA es) (limbsB es) (rs.map BitVec.toNat) (m.flag .CF) ↔
        ∀ pre e, pre ++ [e] <+: es → ¬ Miscarries op pre e) by
    obtain ⟨rs, -, hstored, -, hexact⟩ := hs
    exact ⟨rs, hstored, hexact⟩
  induction h with
  | @first e he =>
    obtain ⟨r, hstored, hr, hcarry⟩ := firstLimb_run he
    refine ⟨[r], List.cons_ne_nil _ _, .cons hstored .nil, ?_, ?_⟩
    · intro x hx
      obtain rfl := List.mem_singleton.mp hx
      rw [hr]
      exact op.digit_lt (by positivity)
    · change Exact op _ [e.a.toNat] [e.b.toNat] [r.toNat] _ ↔ _
      rw [hr, Exact.single_iff, hcarry]
      constructor
      · intro h pre e' hpre
        have hpre' : pre ++ [e'] <+: [] ++ [e] := hpre
        rcases List.prefix_concat_iff.mp hpre' with heq | hnil
        · obtain ⟨rfl, heq⟩ := List.append_inj' heq rfl
          obtain rfl : e' = e := by simpa using heq
          exact h
        · simp at hnil
      · intro h
        exact h [] e (List.prefix_refl _)
  | @next es m e h hcf he ih =>
    obtain ⟨rs, hne, hstored, hlt, hexact⟩ := ih
    obtain ⟨r, hr_stored, hr, hcarry⟩ := nextLimb_run he
    have hlen := hstored.length_eq
    refine ⟨rs ++ [r], by simp, List.rel_append hstored (.cons hr_stored .nil), ?_, ?_⟩
    · intro x hx
      rw [List.map_append, List.mem_append] at hx
      rcases hx with hx | hx
      · exact hlt x hx
      · obtain rfl := List.mem_singleton.mp hx
        rw [hr]
        exact op.digit_lt (by positivity)
    · have hA : limbsA (es ++ [e]) = limbsA es ++ [e.a.toNat] := by simp [limbsA]
      have hB : limbsB (es ++ [e]) = limbsB es ++ [e.b.toNat] := by simp [limbsB]
      have hR : (rs ++ [r]).map BitVec.toNat = rs.map BitVec.toNat ++
          [op.digit (2 ^ d.bits) e.a.toNat e.b.toNat (m.flag .CF)] := by
        rw [List.map_append, ← hcf, ← hr]
        rfl
      rw [hcf] at hcarry
      rw [hA, hB, hR, Exact.snoc_iff (one_lt_base d) (by simp [limbsA, limbsB]) (by simp [limbsA, hlen])
        limbsA_lt limbsB_lt hlt e.a.isLt e.b.isLt, hcarry]
      -- so far exact, the carry flag is the true carry
      have hlast : Exact op (2 ^ d.bits) (limbsA es) (limbsB es) (rs.map BitVec.toNat) (m.flag .CF) →
          (Miscarries op es e ↔ m.flag .CF = true ∧ e.b = BitVec.allOnes d.bits) := by
        intro hx
        have hc := hx.carry
        rw [limbsA, List.length_map, ← pow_mul] at hc
        rw [Miscarries, if_neg hne, hc, and_comm]
        rfl
      constructor
      · rintro ⟨hx, hgood⟩ pre e' hpre
        rcases List.prefix_concat_iff.mp hpre with heq | hpre
        · obtain ⟨rfl, heq⟩ := List.append_inj' heq rfl
          obtain rfl : e' = e := by simpa using heq
          exact fun hbad => hgood ((hlast hx).mp hbad)
        · exact hexact.mp hx pre e' hpre
      · intro hgood
        have hx := hexact.mpr fun pre e' hpre => hgood pre e' (hpre.trans (List.prefix_append _ _))
        exact ⟨hx, fun hbad => hgood es e (List.prefix_refl _) ((hlast hx).mpr hbad)⟩

end Run

/-- The bytes of `00 c8` and `10 ec`: `cx` is added to `ax` byte by byte. -/
theorem limbRun_exact_iff_bytes : ∃ (es : List (LimbExec FlatBus .b)) (m : Machine FlatBus),
    limbsA es = [0xff, 0x12] ∧ limbsB es = [0x01, 0x34] ∧ LimbRun .add es m ∧
    ∃ rs : List Word, List.Forall₂ (fun e r => Stored .b .dest r e.decoded e.after) es rs ∧
      (Exact .add (2 ^ 8) (limbsA es) (limbsB es) (rs.map BitVec.toNat) (m.flag .CF) ↔
        ∀ pre e, pre ++ [e] <+: es → ¬ Miscarries .add pre e) :=
  let m₀ := flatMachine (fun i => if i = rEAX then 0x12ff else 0x3401) [0x00, 0xc8, 0x10, 0xec]
  let e₀ : LimbExec FlatBus .b := .of (firstLimb .add .b) .r2rm 0 m₀
  let e₁ : LimbExec FlatBus .b := .of (nextLimb .add .b) .r2rm 2 e₀.after
  have h : LimbRun .add ([e₀] ++ [e₁]) e₁.after :=
    .next (.first ⟨nofun, 0, 1, ok_stateD (by decide +kernel) _, ok_stateD (by decide +kernel) _⟩)
      (by decide +kernel)
      ⟨nofun, 2, 1, ok_stateD (by decide +kernel) _, ok_stateD (by decide +kernel) _⟩
  ⟨[e₀] ++ [e₁], e₁.after, by decide +kernel, by decide +kernel, h, limbRun_exact_iff h⟩

/-- `add %cl,%al` and `adc %ch,%ah` with `ax = 0x00ff` and `cx = 0xff01`: the sum
is 0x10000, and the carry flag is clear. -/
theorem adc_carry_lost : ∃ m₁ m₂,
    exec 2 0 (flatMachine (fun i => if i = rEAX then 0x00ff else 0xff01) [0x00, 0xc8, 0x10, 0xec]) =
      .ok 2 m₁ ∧ exec 2 2 m₁ = .ok 2 m₂ ∧ m₂.reg .w rEAX = 0 ∧
    m₂.flag .CF ≠ Op.add.carry (2 ^ 16) 0x00ff 0xff01 false :=
  ⟨_, _, rfl, rfl, by decide +kernel, by decide +kernel⟩

end MultiWord

end Nemu
