/-
# Flags that an instruction does not define

Moves, jumps and the other instructions at `moves` leave `eflags` as they are,
`bt` changes at most `CF`, and no instruction but `iret`, `cli`, `sti`, `cld` and
`std` changes `TF`, `IF` or `DF`. But `not` sets `ZF`, `inc` and `dec` set `CF`,
and a shift by zero sets its flags.

Key definitions: `Leaves`, `moves`, `Only`, `SameControl`.
Key theorems: `moves_leave`, `status_leaves`, `bt_leaves`, `flags_frame_iff`.
-/
import Nemu.Cpu.Shifts
import Nemu.Cpu.Ordinary

namespace Nemu

open Bytes Cmd Instr

set_option synthInstance.maxSize 10000

section FlagFrame

variable {P : Type}

/-! ### Properties of the flags alone -/

/-- A property of `eflags`. -/
def OnFlags (J : Word → Prop) (m : Machine P) : Prop := J m.cpu.eflags

section OnFlags

variable {J : Word → Prop}

instance : OpsKept (P := P) (OnFlags J) := inferInstanceAs (OpsKept (OnCpu fun c => J c.eflags))

instance (b : P) : Kept (OnFlags J) (Machine.setBus · b) := ⟨fun _ h => h⟩

instance : DataKept (P := P) (OnFlags J) where
  setVal _ _ := ⟨fun _ h => h⟩
  setReg d _ _ := ⟨fun m h => by cases d <;> exact h⟩
  setGdtr _ := ⟨fun _ h => h⟩
  setIdtr _ := ⟨fun _ h => h⟩
  setCr0 _ := ⟨fun _ h => h⟩
  setCr3 _ := ⟨fun _ h => h⟩
  setState _ := ⟨fun _ h => h⟩

instance : EipKept (P := P) (OnFlags J) := ⟨fun _ => ⟨fun _ h => h⟩⟩

instance : SregKept (P := P) (OnFlags J) := ⟨fun _ _ => ⟨fun _ h => h⟩, fun _ _ => ⟨fun _ h => h⟩⟩

end OnFlags

/-- Nothing but these flags differs. -/
def Only (fs : List Flag) (e e' : Word) : Prop :=
  ∀ i, (∀ f ∈ fs, i ≠ f.bit) → e'.getLsbD i = e.getLsbD i

/-- `TF`, `IF` and `DF` are the same. -/
def SameControl (e e' : Word) : Prop := ∀ i ∈ [8, 9, 10], e'.getLsbD i = e.getLsbD i

/-- The flags of a result. -/
def status : List Flag := [.CF, .PF, .ZF, .SF, .OF]

section Only

variable {fs : List Flag} {e e' : Word}

theorem Only.refl (fs : List Flag) (e : Word) : Only fs e e := fun _ _ => rfl

theorem Only.control (h : Only status e e') : SameControl e e' := by
  intro i hi
  apply h
  revert i
  decide

/-- They are equal if those flags are. -/
theorem Only.eq_iff {m m' : Machine P} (h : Only fs m.cpu.eflags m'.cpu.eflags) :
    m'.cpu.eflags = m.cpu.eflags ↔ ∀ f ∈ fs, m'.flag f = m.flag f := by
  constructor
  · intro heq f _
    exact congrArg (fun e : Word => e.getLsbD f.bit) heq
  · intro hflags
    apply BitVec.eq_of_getLsbD_eq
    intro i _
    by_cases hi : ∀ f ∈ fs, i ≠ f.bit
    · exact h i hi
    · push Not at hi
      obtain ⟨f, hf, rfl⟩ := hi
      exact hflags f hf

theorem kept_setFlag {f : Flag} (hf : f ∈ fs) (e : Word) (b : Bool) :
    Kept (OnFlags (P := P) (Only fs e)) (Machine.setFlag · f b) := by
  refine ⟨fun m h i hi => ?_⟩
  exact (m.cpu.getLsbD_setFlag f b i).trans ((if_neg (hi f hf)).trans (h i hi))

instance [hf : Fact (Flag.CF ∈ fs)] (b : Bool) :
    Kept (OnFlags (P := P) (Only fs e)) (Machine.setFlag · .CF b) := kept_setFlag hf.out e b

instance : StatusKept (P := P) (OnFlags (Only status e)) where
  setFlag f b hf hd := by
    refine kept_setFlag ?_ e b
    revert hf hd
    cases f <;> decide

instance : Fact (Flag.CF ∈ [Flag.CF]) := ⟨by decide⟩

end Only

/-- However the helper ends, the flags after it are related so to those before. -/
def Leaves (R : Word → Word → Prop) (h : Helper P) : Prop :=
  ∀ eip m, Ends (fun _ m' => R m.cpu.eflags m'.cpu.eflags) (fun m' => R m.cpu.eflags m'.cpu.eflags)
    (h eip m)

theorem leaves_of_keeps {R : Word → Word → Prop} (hR : ∀ e, R e e) {h : Helper P}
    (hk : ∀ e eip, Keeps (OnFlags (R e)) (h eip)) : Leaves R h :=
  fun eip m => (hk m.cpu.eflags eip).ends m (hR _)

theorem Leaves.mono {R R' : Word → Word → Prop} {h : Helper P} (hl : Leaves R h)
    (hR : ∀ e e', R e e' → R' e e') : Leaves R' h :=
  fun eip m => (hl eip m).mono (fun _ _ => hR _ _) fun _ => hR _ _

variable [Bus P]

/-! ### The tables -/

/-- The opcodes that move data or transfer control, without prefixes: `push` and
`pop`, the jumps, `xchg`, `mov`, `lea`, `cbw`, `cwd`, `movs`, `stos`, `lods`, `ret`
and `call`. -/
def moves : List ℕ :=
  List.range' 0x50 18 ++ [0x68, 0x6a] ++ List.range' 0x70 16 ++ List.range' 0x86 6 ++
    List.range' 0x8d 13 ++ List.range' 0xa0 6 ++ List.range' 0xaa 4 ++ List.range' 0xb0 16 ++
    [0xc2, 0xc3, 0xc6, 0xc7, 0xcb, 0xe8, 0xe9, 0xea, 0xeb]

/-- Those with two bytes: `mov` to and from control registers, `cmov`, the jumps,
`set`, `movzx` and `movsx`. -/
def moves2 : List ℕ :=
  [0x20, 0x22, 0x44, 0x4d, 0x4e] ++ List.range' 0x80 32 ++ [0xb6, 0xb7, 0xbe, 0xbf]

set_option maxRecDepth 20000 in
theorem moves_entries (exec : Helper P) (fuel : ℕ) :
    moves.map (entry (opcodeTable exec fuel)) =
      [helperV (opR doPush), helperV (opR doPush), helperV (opR doPush), helperV (opR doPush),
       helperV (opR doPush), helperV (opR doPush), helperV (opR doPush), helperV (opR doPush),
       helperV (opR doPop), helperV (opR doPop), helperV (opR doPop), helperV (opR doPop),
       helperV (opR doPop), helperV (opR doPop), helperV (opR doPop), helperV (opR doPop),
       helperV pusha, helperV popa, helperV (opI doPush), opI doPush .b,
       jcc .b .o, jcc .b .no, jcc .b .b, jcc .b .ae, jcc .b .e, jcc .b .ne, jcc .b .be, jcc .b .a,
       jcc .b .s, jcc .b .ns, jcc .b .p, jcc .b .np, jcc .b .l, jcc .b .ge, jcc .b .le, jcc .b .g,
       opR2rm doXchg .b, helperV (opR2rm doXchg), opR2rm doMov .b, helperV (opR2rm doMov),
       opRm2r doMov .b, helperV (opRm2r doMov), lea, movRm2s, helperV (opRm doPop),
       nop, helperV xchgA2r, helperV xchgA2r, helperV xchgA2r, helperV xchgA2r, helperV xchgA2r,
       helperV xchgA2r, helperV xchgA2r, helperV cwtl, helperV cltd,
       movMoffs2a .b, helperV movMoffs2a, movA2moffs .b, helperV movA2moffs,
       opN doMovs .b, helperV (opN doMovs), opN doStos .b, helperV (opN doStos),
       opN doLods .b, helperV (opN doLods),
       opI2r doMov .b, opI2r doMov .b, opI2r doMov .b, opI2r doMov .b,
       opI2r doMov .b, opI2r doMov .b, opI2r doMov .b, opI2r doMov .b,
       helperV (opI2r doMov), helperV (opI2r doMov), helperV (opI2r doMov), helperV (opI2r doMov),
       helperV (opI2r doMov), helperV (opI2r doMov), helperV (opI2r doMov), helperV (opI2r doMov),
       helperV retI, helperV retO, opI2rm doMov .b, helperV (opI2rm doMov), helperV retO,
       helperV callI, helperV (opI doJmp), helperV jmpL, opI doJmp .b] := rfl

set_option maxRecDepth 20000 in
theorem moves2_entries : moves2.map (entry (P := P) opcodeTable2) =
    [movCr2r, movR2cr, helperV cmove, helperV cmovle, helperV cmovle,
     helperV (jcc · .o), helperV (jcc · .no), helperV (jcc · .b), helperV (jcc · .ae),
     helperV (jcc · .e), helperV (jcc · .ne), helperV (jcc · .be), helperV (jcc · .a),
     helperV (jcc · .s), helperV (jcc · .ns), helperV (jcc · .p), helperV (jcc · .np),
     helperV (jcc · .l), helperV (jcc · .ge), helperV (jcc · .le), helperV (jcc · .g),
     setcc .o, setcc .no, setcc .b, setcc .ae, setcc .e, setcc .ne, setcc .be, setcc .a,
     setcc .s, setcc .ns, setcc .p, setcc .np, setcc .l, setcc .ge, setcc .le, setcc .g,
     helperV movzb, movzwL, helperV movsb, movswL] := rfl

omit [Bus P] in
/-- What is kept by all these entries is kept by each. -/
theorem keeps_entry {I : Machine P → Prop} {E : Failure → Prop} {table entries : List (Helper P)}
    {ks : List ℕ} (hks : ks.map (entry table) = entries) [h : TableKeeps I E entries] {k : ℕ}
    (hk : k ∈ ks) (eip : Word) : Keeps I (entry table k eip) E :=
  h.keeps _ (hks ▸ List.mem_map_of_mem hk) eip

/-- **Moves and jumps** leave the flags alone. -/
theorem moves_leave (exec : Helper P) (fuel : ℕ) {k : ℕ} (hk : k ∈ moves) :
    Leaves (· = ·) (entry (opcodeTable exec fuel) k) :=
  leaves_of_keeps (fun _ => rfl) fun _ eip => keeps_entry (moves_entries exec fuel) hk eip

theorem moves2_leave {k : ℕ} (hk : k ∈ moves2) : Leaves (P := P) (· = ·) (entry opcodeTable2 k) :=
  leaves_of_keeps (fun _ => rfl) fun _ eip => keeps_entry moves2_entries hk eip

/-- So do `call`, `jmp` and `push` in group 5. -/
theorem group5_leave {k : ℕ} (hk : k ∈ [2, 3, 4, 5, 6]) : Leaves (P := P) (· = ·) (entry group5 k) := by
  have hentries : [2, 3, 4, 5, 6].map (entry (P := P) group5) =
      [helperV callRm, helperV callRm, helperV (opRm doJmp), helperV (opRm doJmp),
       helperV (opRm doPush)] := rfl
  exact leaves_of_keeps (fun _ => rfl) fun _ eip => keeps_entry hentries hk eip

/-- **The control flags** are left alone by all the others of one byte. -/
theorem status_leaves (exec : Helper P) (fuel : ℕ) {k : ℕ} (hk : k ∉ special ++ [0xfc, 0xfd]) :
    Leaves SameControl (entry (opcodeTable exec fuel) k) :=
  (leaves_of_keeps (Only.refl status) fun _ eip =>
    keeps_opcodeTable_status hk exec fuel eip).mono fun _ _ => Only.control

/-- And by all of two bytes. -/
theorem status_leaves2 (k : ℕ) : Leaves (P := P) SameControl (entry opcodeTable2 k) := by
  refine (leaves_of_keeps (Only.refl status) fun e eip => ?_).mono fun _ _ => Only.control
  by_cases hk : k = 1
  · subst hk
    exact inferInstanceAs (Keeps _ (group group7 eip))
  · exact keeps_opcodeTable2 hk eip

/-- **Bit tests** change the carry only. -/
theorem bt_leaves {k : ℕ} (hk : k ∈ [0xa3, 0xba]) :
    Leaves (P := P) (Only [.CF]) (entry opcodeTable2 k) := by
  have hentries : [0xa3, 0xba].map (entry (P := P) opcodeTable2) = [helperV btR2rm, helperV btI2rm] := rfl
  exact leaves_of_keeps (Only.refl _) fun _ eip => keeps_entry hentries hk eip

/-! ### Instructions with one operand -/

/-- Those that set a flag they do not define. -/
inductive UnaryOp where
  | inc | dec | not
  deriving DecidableEq

/-- Their operand is the register of the opcode, or that of a ModRM byte. -/
inductive UnaryForm where
  | r | rm
  deriving DecidableEq

def UnaryOp.exec (d : Width) : UnaryOp → Cmd (Machine P) Unit
  | inc => doInc d
  | dec => doDec d
  | not => doNot d

def UnaryForm.decode (d : Width) : UnaryForm → Helper P
  | r => decodeR d
  | rm => decodeRm d

def UnaryForm.helper (op : UnaryOp) (form : UnaryForm) (d : Width) : Helper P :=
  idex (form.decode d) (op.exec d)

set_option maxRecDepth 20000 in
/-- Their opcodes. -/
theorem unary_tables (exec : Helper P) (fuel : ℕ) :
    (∀ k < 8, entry (opcodeTable exec fuel) (0x40 + k) = helperV (UnaryForm.r.helper .inc) ∧
      entry (opcodeTable exec fuel) (0x48 + k) = helperV (UnaryForm.r.helper .dec)) ∧
    entry (P := P) group4 0 = UnaryForm.rm.helper .inc .b ∧
    entry (P := P) group5 0 = helperV (UnaryForm.rm.helper .inc) ∧
    entry (P := P) group4 1 = UnaryForm.rm.helper .dec .b ∧
    entry (P := P) group5 1 = helperV (UnaryForm.rm.helper .dec) ∧
    entry (P := P) group3B 2 = UnaryForm.rm.helper .not .b ∧
    entry (P := P) group3V 2 = helperV (UnaryForm.rm.helper .not) := by
  refine ⟨fun k hk => ?_, rfl, rfl, rfl, rfl, rfl, rfl⟩
  interval_cases k <;> exact ⟨rfl, rfl⟩

variable {d : Width}

/-- **The decoded operand** has the width. -/
theorem UnaryForm.decode_ok {form : UnaryForm} {eip len : Word} {m m₁ : Machine P}
    (h : form.decode d eip m = .ok len m₁) : Fits d .src m₁ ∧ m₁.cpu = m.cpu := by
  cases form with
  | r =>
    refine ⟨?_, cpu_of_keeps (show decodeR d eip m = .ok len m₁ from h)⟩
    injection h with _ h
    subst h
    rw [Fits, Machine.val_setVal, if_pos rfl]
    exact Machine.toNat_reg_lt ..
  | rm =>
    have hrm := decodeRmInternal_ends d eip (show Slot.src ≠ .src2 by decide) m
    rw [show decodeRmInternal d eip .src .src2 m = .ok len m₁ from h] at hrm
    exact ⟨hrm.1, cpu_of_keeps (show decodeRm d eip m = .ok len m₁ from h)⟩

/-- The flag that the code sets beside the result's, and its value. -/
def UnaryOp.stray : UnaryOp → Flag
  | inc | dec => .CF
  | not => .ZF

def UnaryOp.strayValue (d : Width) (v : Word) : UnaryOp → Bool
  | inc | not => v.toNat + 1 == 2 ^ d.bits
  | dec => v == 0

/-- What is to be left: `CF`, or all flags. -/
def UnaryOp.Framed (op : UnaryOp) (e e' : Word) : Prop :=
  match op with
  | inc | dec => e'.getLsbD Flag.CF.bit = e.getLsbD Flag.CF.bit
  | not => e' = e

omit [Bus P] in
/-- An operand of the width and its successor. -/
theorem succ_ult {v : Word} (h : v.toNat < 2 ^ d.bits) :
    (d.trunc (v + 1)).ult v = (v.toNat + 1 == 2 ^ d.bits) := by
  have hpos : 256 ≤ 2 ^ d.bits := by cases d <;> decide
  have hle : 2 ^ d.bits ≤ 2 ^ 32 := Nat.pow_le_pow_right (by norm_num) d.bits_le
  have hdvd : 2 ^ d.bits ∣ 2 ^ 32 := Nat.pow_dvd_pow 2 d.bits_le
  have hone : (1 : Word).toNat = 1 := rfl
  rw [BitVec.ult_eq_decide, Width.toNat_trunc, BitVec.toNat_add, hone, Nat.mod_mod_of_dvd _ hdvd]
  by_cases hv : v.toNat + 1 = 2 ^ d.bits
  · rw [hv, Nat.mod_self, beq_self_eq_true, decide_eq_true_eq]
    omega
  · rw [Nat.mod_eq_of_lt (by omega), beq_eq_false_iff_ne.mpr hv, decide_eq_false_iff_not]
    omega

omit [Bus P] in
theorem ult_one (v : Word) : v.ult 1 = (v == 0) := by
  have hone : (1 : Word).toNat = 1 := rfl
  rw [BitVec.ult_eq_decide, hone, Bool.eq_iff_iff, decide_eq_true_iff, beq_iff_eq]
  constructor
  · intro h
    exact BitVec.eq_of_toNat_eq (Nat.lt_one_iff.mp h)
  · rintro rfl
    exact Nat.one_pos

omit [Bus P] in
/-- The complement is zero when all bits are set. -/
theorem not_eq_zero {v : Word} (h : v.toNat < 2 ^ d.bits) :
    (d.trunc (~~~v) == 0) = (v.toNat + 1 == 2 ^ d.bits) := by
  have hle : 2 ^ d.bits ≤ 2 ^ 32 := Nat.pow_le_pow_right (by norm_num) d.bits_le
  have hdvd : 2 ^ d.bits ∣ 2 ^ 32 := Nat.pow_dvd_pow 2 d.bits_le
  rw [Bool.eq_iff_iff, beq_iff_eq, beq_iff_eq, ← BitVec.toNat_inj, Width.toNat_trunc, BitVec.toNat_not]
  have hzero : (0 : Word).toNat = 0 := rfl
  obtain ⟨k, hk⟩ := hdvd
  have hsplit : 2 ^ 32 - 1 - v.toNat = (2 ^ d.bits - 1 - v.toNat) + 2 ^ d.bits * (k - 1) := by
    have hk0 : 0 < k := by
      rcases Nat.eq_zero_or_pos k with rfl | hk0
      · omega
      · exact hk0
    obtain ⟨j, rfl⟩ := Nat.exists_eq_add_of_lt hk0
    have hmul : 2 ^ d.bits * (0 + j + 1) = 2 ^ d.bits * j + 2 ^ d.bits := by ring
    rw [show 0 + j + 1 - 1 = j by omega]
    omega
  rw [hsplit, Nat.add_mul_mod_self_left, Nat.mod_eq_of_lt (by omega), hzero]
  omega

/-- **What they do to the flag.** -/
theorem UnaryOp.exec_ok {op : UnaryOp} {m m' : Machine P} (hfit : Fits d .src m)
    (h : op.exec d m = .ok () m') :
    m'.flag op.stray = op.strayValue d (m.val .src) := by
  cases op with
  | inc =>
    have hrun : doInc d m = .ok () m' := h
    unfold doInc at hrun
    rw [read_bind_run] at hrun
    obtain ⟨_, m₁, -, hflags⟩ := bind_eq_ok hrun
    injection hflags with _ hm
    subst hm
    simp [stray, strayValue, ← succ_ult hfit]
  | dec =>
    have hrun : doDec d m = .ok () m' := h
    unfold doDec at hrun
    rw [read_bind_run] at hrun
    obtain ⟨_, m₁, -, hflags⟩ := bind_eq_ok hrun
    injection hflags with _ hm
    subst hm
    simpa [stray, strayValue] using ult_one (m.val .src)
  | not =>
    have hrun : doNot d m = .ok () m' := h
    unfold doNot at hrun
    rw [read_bind_run] at hrun
    obtain ⟨_, m₁, -, hflags⟩ := bind_eq_ok hrun
    injection hflags with _ hm
    subst hm
    simp [stray, strayValue, ← not_eq_zero hfit]

/-- `not` sets `ZF` only. -/
theorem doNot_only {m m' : Machine P} (h : doNot d m = .ok () m') :
    Only [.ZF] m.cpu.eflags m'.cpu.eflags := by
  have hset := kept_setFlag (P := P) (show Flag.ZF ∈ [Flag.ZF] by decide) m.cpu.eflags
  have hkeeps : Keeps (OnFlags (Only [.ZF] m.cpu.eflags)) (doNot (P := P) d) := by
    unfold doNot
    infer_instance
  have hends := hkeeps.ends m (Only.refl _ _)
  rw [h] at hends
  exact hends

/-- **The stray flag** is left as it was when it was as the code sets it. -/
theorem UnaryOp.framed_iff {op : UnaryOp} {form : UnaryForm} {eip len : Word} {m m₁ m' : Machine P}
    (hdec : form.decode d (eip + 1) m = .ok len m₁) (hrun : form.helper op d eip m = .ok (len + 1) m') :
    op.Framed m.cpu.eflags m'.cpu.eflags ↔ m.flag op.stray = op.strayValue d (m₁.val .src) := by
  obtain ⟨hfit, hcpu⟩ := UnaryForm.decode_ok hdec
  have hexec := exec_of_idex hdec hrun
  have hflag := UnaryOp.exec_ok hfit hexec
  rw [← hflag, ← hcpu]
  have hsame : m.flag op.stray = m₁.flag op.stray := by rw [Machine.flag, Machine.flag, hcpu]
  rw [hsame]
  cases op with
  | inc => exact eq_comm
  | dec => exact eq_comm
  | not =>
    rw [Framed, (doNot_only hexec).eq_iff, List.forall_mem_singleton]
    exact eq_comm

/-! ### Shifts by zero -/

/-- The flags that a shift sets, and the values it gives them when the masked
count is 0. -/
def ShiftOp.zeroFlags (op : ShiftOp) (d : Width) (v c : Word) : List (Flag × Bool) :=
  [(.CF, op.countBit d.bits c.toNat), (.SF, (v.setWidth d.bits).msb), (.ZF, v == 0), (.PF, evenParity v)]

/-- A shift sets no other flags. -/
theorem ShiftOp.exec_only {op : ShiftOp} {m m' : Machine P} (h : op.exec d m = .ok () m') :
    Only [.CF, .SF, .ZF, .PF] m.cpu.eflags m'.cpu.eflags := by
  have hset : ∀ f ∈ [Flag.CF, .SF, .ZF, .PF], ∀ b : Bool,
      Kept (OnFlags (P := P) (Only [.CF, .SF, .ZF, .PF] m.cpu.eflags)) (Machine.setFlag · f b) :=
    fun f hf => kept_setFlag hf m.cpu.eflags
  simp only [List.forall_mem_cons] at hset
  obtain ⟨hcf, hsf, hzf, hpf, -⟩ := hset
  have hshift : ∀ carry f, Keeps (OnFlags (Only [.CF, .SF, .ZF, .PF] m.cpu.eflags))
      (doShift (P := P) d carry f) := by
    intro carry f
    unfold doShift setResultFlags
    infer_instance
  have hkeeps : Keeps (OnFlags (Only [.CF, .SF, .ZF, .PF] m.cpu.eflags)) (op.exec (P := P) d) := by
    cases op with
    | shl =>
      change Keeps _ (doShl d)
      unfold doShl
      exact hshift _ _
    | shr =>
      change Keeps _ (doShr d)
      unfold doShr
      exact hshift _ _
    | sar =>
      change Keeps _ (doSar d)
      unfold doSar
      exact hshift _ _
  have hends := hkeeps.ends m (Only.refl _ _)
  rw [h] at hends
  exact hends

omit [Bus P] in
/-- An operand shifted by zero. -/
theorem ShiftOp.result_zero (op : ShiftOp) {v : Word} (hv : v.toNat < 2 ^ d.bits) :
    op.result d v 0 = v := by
  have hval := op.toNat_result d v 0
  have hlow : (v.setWidth d.bits).toNat = v.toNat := by
    rw [BitVec.toNat_setWidth, Nat.mod_eq_of_lt hv]
  have hnat : ((op.result d v 0).toNat : ℤ) = v.toNat := by
    rw [hval]
    cases op with
    | shl =>
      simp only [value]
      rw [hlow, pow_zero, mul_one]
      exact Int.emod_eq_of_lt (by omega) (by exact_mod_cast hv)
    | shr =>
      simp only [value]
      rw [hlow, pow_zero, Int.ediv_one]
    | sar =>
      simp only [value]
      have hmod : ((v.setWidth d.bits).toNat : ℤ).bmod (2 ^ d.bits) % (2 ^ d.bits : ℕ) =
          (v.setWidth d.bits).toNat % (2 ^ d.bits : ℕ) := Int.bmod_emod
      rw [← BitVec.toInt_eq_toNat_bmod, hlow] at hmod
      push_cast at hmod
      rw [pow_zero, Int.ediv_one, hmod]
      exact Int.emod_eq_of_lt (by omega) (by exact_mod_cast hv)
  exact BitVec.eq_of_toNat_eq (by exact_mod_cast hnat)

/-- **Shifts by zero** leave the flags alone when they are as the code sets them. -/
theorem shift_zero_iff {op : ShiftOp} {form : ShiftForm} {eip len : Word} {m m₁ m' : Machine P}
    (hdec : form.decode d (eip + 1) m = .ok len m₁) (hrun : form.helper op d eip m = .ok (len + 1) m')
    (hzero : (m₁.val .src).toNat % 32 = 0) :
    m'.cpu.eflags = m.cpu.eflags ↔
      ∀ x ∈ op.zeroFlags d (m₁.val .dest) (m₁.val .src), m.flag x.1 = x.2 := by
  obtain ⟨hfit, hcount⟩ := ShiftForm.decode_ok hdec
  have hcpu : m₁.cpu = m.cpu := by
    cases form with
    | one => exact cpu_of_keeps (show decodeRm1 d (eip + 1) m = .ok len m₁ from hdec)
    | cl => exact cpu_of_keeps (show decodeRmCl d (eip + 1) m = .ok len m₁ from hdec)
    | imm => exact cpu_of_keeps (show decodeRmImm d (eip + 1) m = .ok len m₁ from hdec)
  have hexec := exec_of_idex hdec hrun
  have hdone := ShiftOp.exec_ok hcount.lt hexec
  rw [hzero, op.result_zero hfit] at hdone
  rw [← hcpu, (ShiftOp.exec_only hexec).eq_iff]
  have hflag : ∀ f, m₁.flag f = m.flag f := fun f => congrArg (fun c : CpuState => c.flag f) hcpu
  simp only [List.forall_mem_cons, ShiftOp.zeroFlags, hdone.cf, hdone.sf, hdone.zf, hdone.pf,
    d.msb_eq, hflag]
  simp [eq_comm]

/-- **The frame of the flags.** The moves and jumps leave `eflags` as they are, the
other instructions leave `TF`, `IF` and `DF`, and `bt` leaves all but `CF`. `inc`
and `dec` leave `CF`, and `not` and a shift by zero `eflags`, if and only if the
flags they set have these values already. -/
theorem flags_frame_iff (exec : Helper P) (fuel : ℕ) :
    ((∀ k ∈ moves, Leaves (· = ·) (entry (opcodeTable exec fuel) k)) ∧
      (∀ k ∈ moves2, Leaves (P := P) (· = ·) (entry opcodeTable2 k)) ∧
      ∀ k ∈ [2, 3, 4, 5, 6], Leaves (P := P) (· = ·) (entry group5 k)) ∧
    ((∀ k, k ∉ special ++ [0xfc, 0xfd] → Leaves SameControl (entry (opcodeTable exec fuel) k)) ∧
      ∀ k, Leaves (P := P) SameControl (entry opcodeTable2 k)) ∧
    (∀ k ∈ [0xa3, 0xba], Leaves (P := P) (Only [.CF]) (entry opcodeTable2 k)) ∧
    (∀ (d : Width) (op : UnaryOp) (form : UnaryForm) (eip len : Word) (m m₁ m' : Machine P),
      form.decode d (eip + 1) m = .ok len m₁ → form.helper op d eip m = .ok (len + 1) m' →
      (op.Framed m.cpu.eflags m'.cpu.eflags ↔ m.flag op.stray = op.strayValue d (m₁.val .src))) ∧
    ∀ (d : Width) (op : ShiftOp) (form : ShiftForm) (eip len : Word) (m m₁ m' : Machine P),
      form.decode d (eip + 1) m = .ok len m₁ → form.helper op d eip m = .ok (len + 1) m' →
      (m₁.val .src).toNat % 32 = 0 →
      (m'.cpu.eflags = m.cpu.eflags ↔
        ∀ x ∈ op.zeroFlags d (m₁.val .dest) (m₁.val .src), m.flag x.1 = x.2) :=
  ⟨⟨fun _ => moves_leave exec fuel, fun _ => moves2_leave, fun _ => group5_leave⟩,
    ⟨fun _ => status_leaves exec fuel, status_leaves2⟩, fun _ => bt_leaves,
    fun _ _ _ _ _ _ _ _ hdec hrun => UnaryOp.framed_iff hdec hrun,
    fun _ _ _ _ _ _ _ _ hdec hrun hzero => shift_zero_iff hdec hrun hzero⟩

end FlagFrame

/-- All bits set in the registers, and no flag. -/
def onesMachine (code : List Byte) : Machine FlatBus := flatMachine (fun _ => 0xffffffff) code

/-- There `not %eax` sets `ZF`, `inc %eax` sets `CF`, and `shl $0,%eax` sets `SF`. -/
theorem flags_not_framed :
    (∃ m', UnaryForm.rm.helper .not .l 0 (onesMachine [0xf7, 0xd0]) = .ok 2 m' ∧
      m'.cpu.eflags ≠ (onesMachine [0xf7, 0xd0]).cpu.eflags) ∧
    (∃ m', UnaryForm.rm.helper .inc .l 0 (onesMachine [0xff, 0xc0]) = .ok 2 m' ∧
      m'.flag .CF ≠ (onesMachine [0xff, 0xc0]).flag .CF) ∧
    ∃ m', ShiftForm.imm.helper .shl .l 0 (onesMachine [0xc1, 0xe0, 0x00]) = .ok 3 m' ∧
      m'.cpu.eflags ≠ (onesMachine [0xc1, 0xe0, 0x00]).cpu.eflags := by
  refine ⟨?_, ?_, ?_⟩
  · exact ⟨_, ok_stateD (by decide +kernel) (onesMachine []), by decide +kernel⟩
  · exact ⟨_, ok_stateD (by decide +kernel) (onesMachine []), by decide +kernel⟩
  · exact ⟨_, ok_stateD (by decide +kernel) (onesMachine []), by decide +kernel⟩

end Nemu
