/-
# What an instruction leaves for the next one

Every instruction reads the operand records that its decoder filled in, but for
four: `sbb` looks at a `size` that most decoders do not set, `pop` of a register
at `op_src->sreg`, `bt` with an immediate at `op_dest`, and `scas` at the `val`
of both operands. There the result depends on an earlier instruction.

Key definitions: `Stale`, `Executes`, `SameState`.
Key theorems: `instr_alike`, `exec_alike`, `Stale.depends`, `leftovers_unused`.
-/
import Nemu.Cpu.FlatBus
import Nemu.Cpu.MultiWord
import Nemu.Cpu.Simulate
import Nemu.Cpu.TwoRuns

namespace Nemu

open Bytes Cmd Instr

set_option synthInstance.maxSize 10000

section Leftovers

variable {P : Type} {Φ : (Slot → Operand) → (Slot → Operand) → Prop}

/-! ### `sbb` -/

/-- `op_src->val` as `sbb` leaves it, for the overflow flag. -/
def sbbVal (m : Machine P) : Word :=
  if (m.operand .src).size = 1 ∧ (m.operand .dest).size ≠ 1 then Width.sext .b (m.val .src) else m.val .src

def sbbResult (d : Width) (m : Machine P) : Word := d.trunc (m.val .dest - sbbSrc d m)

/-- The overflow flag of a subtraction. -/
def subOverflow (d : Width) (dest src result : Word) : Bool :=
  d.msb dest != d.msb src && d.msb result == d.msb src

theorem setWidth_sext_b (v : Word) : (Width.sext .b v).setWidth 8 = v.setWidth 8 := by
  refine BitVec.eq_of_getLsbD_eq fun i hi => ?_
  rw [BitVec.getLsbD_setWidth, BitVec.getLsbD_setWidth, Width.sext, BitVec.getLsbD_signExtend,
    BitVec.getLsbD_setWidth]
  simp [hi, Nat.lt_trans hi (by decide : 8 < 32), Width.bits, Width.bytes]

theorem sext_sext_b (v : Word) : Width.sext .b (Width.sext .b v) = Width.sext .b v :=
  congrArg (BitVec.signExtend 32) (setWidth_sext_b v)

/-- Its sign is bit 7. -/
theorem msb_sext_b (d : Width) (v : Word) : d.msb (Width.sext .b v) = v.getLsbD 7 := by
  cases d <;> simp [Width.msb, Width.sext, Width.bits, Width.bytes, BitVec.getElem_signExtend,
    BitVec.msb_eq_getLsbD_last]

variable [Bus P] {d : Width} {eip : Word} {s t m : Machine P}

theorem doSbb_run (d : Width) (m : Machine P) : doSbb d m = (do
    write (Machine.setVal · .src (sbbVal m))
    writeOperand d .dest (sbbResult d m)
    setSubFlags d ((m.val .dest).ult (sbbSrc d m)) (m.val .dest) (sbbVal m) (sbbResult d m)) m := rfl

omit [Bus P] in
/-- Only the overflow flag depends on the operand itself. -/
theorem setSubFlags_congr {c : Bool} {dest x y r : Word} (h : subOverflow d dest x r = subOverflow d dest y r) :
    setSubFlags (P := P) d c dest x r = setSubFlags d c dest y r := by
  unfold setSubFlags
  unfold subOverflow at h
  rw [h]

/-- The records of `op_dest` may be used. -/
def DestKnown (g g' : Slot → Operand) : Prop := Settled (g .dest) (g' .dest)

instance : Knows DestKnown .dest := ⟨fun _ _ h => h⟩

omit [Bus P] in
/-- What `sbb` computes from the records that are known. -/
theorem sbb_known [Knows Φ .src] [Knows Φ .dest] (h : Beside Φ s t) :
    s.val .dest = t.val .dest ∧ sbbSrc d s = sbbSrc d t ∧ sbbResult d s = sbbResult d t := by
  have hdest : s.val .dest = t.val .dest := Seen.seen (f := (·.val .dest)) s t h
  have hval : s.val .src = t.val .src := Seen.seen (f := (·.val .src)) s t h
  have hcf : s.flag .CF = t.flag .CF := Seen.seen (f := (·.flag .CF)) s t h
  have hsrc : sbbSrc d s = sbbSrc d t := by rw [sbbSrc, sbbSrc, hval, hcf]
  exact ⟨hdest, hsrc, by rw [sbbResult, sbbResult, hdest, hsrc]⟩

omit [Bus P] in
/-- The record of `op_src` may change. -/
theorem Beside.setVal_src [hd : Knows Φ .dest] (h : Beside Φ s t) (v : Word) :
    Beside DestKnown s (t.setVal .src v) := by
  obtain ⟨f, hf⟩ := h
  have hdest : Settled (s.operand .dest) (f .dest) := hd.settled _ _ hf
  exact .intro s (Function.update f .src { f .src with val := v }) hdest

theorem doSbb_alike [Knows Φ .src] [hd : Knows Φ .dest] (h : Beside Φ s t)
    (hof : (∃ m, writeOperand d .dest (sbbResult d s) s = .ok () m) →
      subOverflow d (s.val .dest) (sbbVal s) (sbbResult d s) =
        subOverflow d (s.val .dest) (sbbVal t) (sbbResult d s)) :
    Alike UpToOperands (doSbb d s) (doSbb d t) := by
  obtain ⟨hdest, hsrc, hresult⟩ := sbb_known (d := d) h
  rw [doSbb_run, doSbb_run, write_bind_run, write_bind_run, ← hdest, ← hsrc, ← hresult]
  -- the records of `op_src` may differ now, which the write to `op_dest` does not see
  have hst : Beside DestKnown (s.setVal .src (sbbVal s)) (t.setVal .src (sbbVal t)) := by
    obtain ⟨f, hf⟩ := h
    have hdest : Settled (s.operand .dest) (f .dest) := hd.settled _ _ hf
    exact .intro (s.setVal .src _) (Function.update f .src { f .src with val := _ }) hdest
  refine (Syncs.alike _ _ hst).bind_of_run (fun _ _ => Beside.forget) fun _ s' t' hw h' => ?_
  have hs : Beside DestKnown (s.setVal .src (sbbVal s)) s :=
    .intro (s.setVal .src _) s.ops.operand (.refl (s.operand .dest))
  obtain ⟨m, hm, -⟩ := (Syncs.alike _ _ hs).ok hw
  rw [setSubFlags_congr (hof ⟨m, hm⟩)]
  exact (Syncs.alike s' t' h').mono fun _ _ => Beside.forget

omit [Bus P] in
/-- The sign is the same whether the operand is extended or not, if its bit 7 is its
sign. -/
theorem sbbVal_sign (h : (s.val .src).getLsbD 7 = d.msb (s.val .src)) :
    d.msb (sbbVal s) = d.msb (s.val .src) := by
  unfold sbbVal
  split
  · rw [msb_sext_b, h]
  · rfl

theorem subOverflow_congr {dest x y r : Word} (h : d.msb x = d.msb y) :
    subOverflow d dest x r = subOverflow d dest y r := by
  rw [subOverflow, subOverflow, h]

theorem subOverflow_of_eq {dest x r : Word} (h : d.msb dest = d.msb r) : subOverflow d dest x r = false := by
  rw [subOverflow, h]
  cases d.msb r <;> cases d.msb x <;> rfl

instance [Knows Φ .src] [Knows Φ .dest] : Forgets Φ (doSbb (P := P) .b) := by
  refine ⟨fun s t hst => doSbb_alike hst fun _ => subOverflow_congr ?_⟩
  have hval : s.val .src = t.val .src := Seen.seen (f := (·.val .src)) s t hst
  rw [sbbVal_sign rfl, sbbVal_sign rfl, hval]

/-- The operand that may be in memory has the size of the instruction. -/
instance : Forgets (Filled (Filled Unknown .src (Twin d.bytes)) .dest Settled) (doSbb (P := P) d) := by
  by_cases hb : d = .b
  · subst hb
    infer_instance
  · refine ⟨fun s t hst => doSbb_alike hst fun _ => ?_⟩
    have hne : d.bytes ≠ 1 := by cases d <;> first | exact absurd rfl hb | decide
    have hval : s.val .src = t.val .src := Seen.seen (f := (·.val .src)) s t hst
    obtain ⟨f, hf⟩ := hst
    obtain ⟨-, h, h', ⟨⟨heq, hsize⟩, -⟩, hj⟩ := hf
    have hs : (s.operand .src).size = d.bytes := by rw [Machine.operand, (hj .src (by decide)).1, hsize]
    have ht : (f .src).size = d.bytes := by rw [(hj .src (by decide)).2, ← heq, hsize]
    rw [sbbVal, sbbVal, if_neg fun h => hne (hs.symm.trans h.1), if_neg fun h => hne (ht.symm.trans h.1), hval]

/-- An immediate that was extended from a byte stays as it is. -/
instance : Forgets (Filled (Filled (Filled Unknown .dest (Twin d.bytes)) .src2 Settled) .src (Extended .b))
    (doSbb (P := P) d) := by
  refine ⟨fun s t hst => doSbb_alike hst fun _ => ?_⟩
  have hval : s.val .src = t.val .src := Seen.seen (f := (·.val .src)) s t hst
  obtain ⟨f, hf⟩ := hst
  obtain ⟨⟨-, v, hv⟩, -⟩ := hf
  have hv' : s.val .src = Width.sext .b v := hv
  have hext : Width.sext .b (s.val .src) = s.val .src := by rw [hv', sext_sext_b]
  rw [sbbVal, sbbVal, ← hval, hext, ite_self, ite_self]

/-! ### The tables -/

section Ops

variable (e : Width → Cmd (Machine P) Unit) (d : Width) (eip : Word) {R : Machine P → Machine P → Prop}

instance [h : Syncs R (idex (decodeR2rm d) (e d) eip)] : Syncs R (opR2rm e d eip) := h
instance [h : Syncs R (idex (decodeRm2r d) (e d) eip)] : Syncs R (opRm2r e d eip) := h
instance [h : Syncs R (idex (decodeI2rm d) (e d) eip)] : Syncs R (opI2rm e d eip) := h
instance [h : Syncs R (idex (decodeSi2rm d) (e d) eip)] : Syncs R (opSi2rm e d eip) := h
instance [h : Syncs R (idex (decodeI2a d) (e d) eip)] : Syncs R (opI2a e d eip) := h
instance [h : Syncs R (idex (decodeI2r d) (e d) eip)] : Syncs R (opI2r e d eip) := h
instance [h : Syncs R (idex (decodeRm d) (e d) eip)] : Syncs R (opRm e d eip) := h
instance [h : Syncs R (idex (decodeR d) (e d) eip)] : Syncs R (opR e d eip) := h
instance [h : Syncs R (idex (decodeI d) (e d) eip)] : Syncs R (opI e d eip) := h
instance [h : Syncs R (idex decodeN (e d) eip)] : Syncs R (opN e d eip) := h
instance [h : Syncs R (idex (decodeIRm2r d) (e d) eip)] : Syncs R (opIRm2r e d eip) := h
instance [h : Syncs R (idex (decodeSiRm2r d) (e d) eip)] : Syncs R (opSiRm2r e d eip) := h
instance [h : Syncs R (idex (decodeRm1 d) (e d) eip)] : Syncs R (opRm1 e d eip) := h
instance [h : Syncs R (idex (decodeRmCl d) (e d) eip)] : Syncs R (opRmCl e d eip) := h
instance [h : Syncs R (idex (decodeRmImm d) (e d) eip)] : Syncs R (opRmImm e d eip) := h

end Ops

/-- Two runs of every entry end alike. -/
class TableSyncs (table : List (Helper P)) : Prop where
  syncs : ∀ h ∈ table, ∀ eip, Syncs UpToOperands (h eip)

omit [Bus P] in
instance : TableSyncs (P := P) [] := ⟨fun _ h => nomatch h⟩

omit [Bus P] in
instance {h : Helper P} {table : List (Helper P)} [hh : ∀ eip, Syncs UpToOperands (h eip)]
    [ht : TableSyncs table] : TableSyncs (h :: table) :=
  ⟨List.forall_mem_cons.mpr ⟨hh, ht.syncs⟩⟩

instance {table : List (Helper P)} [h : TableSyncs table] (k : ℕ) (eip : Word) :
    Syncs UpToOperands (entry table k eip) := by
  rw [entry, List.getD_eq_getElem?_getD]
  by_cases hk : k < table.length
  · rw [List.getElem?_eq_getElem hk]
    exact h.syncs _ (List.getElem_mem hk) eip
  · rw [List.getElem?_eq_none (Nat.le_of_not_lt hk)]
    exact inferInstanceAs (Syncs UpToOperands (abort : Cmd (Machine P) Word))

instance {table : List (Helper P)} [TableSyncs table] (eip : Word) :
    Syncs UpToOperands (group table eip) := by
  unfold group
  infer_instance

instance : TableSyncs (P := P) group1B := by unfold group1B; infer_instance
instance : TableSyncs (P := P) (without group1V [3]) := by
  unfold without group1V
  simp only [List.foldl_cons, List.foldl_nil, List.set_cons_succ, List.set_cons_zero]
  infer_instance
instance : TableSyncs (P := P) group1SxV := by unfold group1SxV; infer_instance
instance : TableSyncs (P := P) group2IB := by unfold group2IB; infer_instance
instance : TableSyncs (P := P) group2IV := by unfold group2IV; infer_instance
instance : TableSyncs (P := P) group21B := by unfold group21B; infer_instance
instance : TableSyncs (P := P) group21V := by unfold group21V; infer_instance
instance : TableSyncs (P := P) group2ClB := by unfold group2ClB; infer_instance
instance : TableSyncs (P := P) group2ClV := by unfold group2ClV; infer_instance
instance : TableSyncs (P := P) group3B := by unfold group3B; infer_instance
instance : TableSyncs (P := P) group3V := by unfold group3V; infer_instance
instance : TableSyncs (P := P) group4 := by unfold group4; infer_instance
instance : TableSyncs (P := P) group5 := by unfold group5; infer_instance
instance : TableSyncs (P := P) group6 := by unfold group6; infer_instance
instance : TableSyncs (P := P) group7 := by unfold group7; infer_instance

set_option maxRecDepth 20000 in
instance : TableSyncs (P := P) (without opcodeTable2 [0xba]) := by
  unfold without opcodeTable2
  simp only [List.foldl_cons, List.foldl_nil, List.set_cons_succ, List.set_cons_zero]
  infer_instance

/-- The opcodes of the four instructions, and those behind which they are. -/
def staleOpcodes : List ℕ :=
  [0x0f, 0x19, 0x1d, 0x58, 0x59, 0x5a, 0x5b, 0x5c, 0x5d, 0x5e, 0x5f, 0x66, 0x81, 0xae, 0xaf, 0xf2, 0xf3]

set_option maxRecDepth 20000 in
instance : TableSyncs (P := P) (without (opcodeTable inv 0) staleOpcodes) := by
  unfold without opcodeTable staleOpcodes
  simp only [List.foldl_cons, List.foldl_nil, List.set_cons_succ, List.set_cons_zero]
  infer_instance

/-! ### The instructions that use leftovers -/

/-- With these operands `sbb` computes another overflow flag if it extends one, and
it returns. -/
structure SbbStale (d : Width) (m : Machine P) : Prop where
  sign : (m.val .src).getLsbD 7 ≠ d.msb (m.val .src)
  result : d.msb (m.val .dest) ≠ d.msb (sbbResult d m)
  writes : ∃ m', writeOperand d .dest (sbbResult d m) m = .ok () m'

/-- A word can be popped from some segment into register `i`, and its place zeroed. -/
structure PopStale (d : Width) (i : Fin 8) (m : Machine P) : Prop where
  pops : ∃ sreg v p p', readMem m.cpu (m.reg .l rESP) d.bytes sreg m.bus = some (v, p) ∧
    writeMem (m.cpu.setReg d i v) ((m.cpu.setReg d i v).reg .l rESP) d.bytes 0 2 p = some p'

/-- The operands of `bt` with an immediate can be decoded. -/
structure BtStale (d : Width) (eip : Word) (m : Machine P) : Prop where
  decodes : ∃ len m₁ len' m₂, decodeRm d (eip + 1) m = .ok len m₁ ∧
    decodeI .b (eip + 1 + len) m₁ = .ok len' m₂

/-- The element of `scas` can be read. -/
structure ScasStale (d : Width) (m : Machine P) : Prop where
  reads : ∃ v p, readMem m.cpu (m.reg .l rEDI) d.bytes 0 m.bus = some (v, p)

/-- The instruction at `eip`, with this opcode, uses what an earlier one left in the
operand records, and the result shows it. -/
inductive Stale (opcode eip : Word) (m : Machine P) : Prop
  | sbbR2rm {len : Word} {m₁ : Machine P} (ho : opcode.toNat = 0x19)
    (hd : decodeR2rm m.opWidth (eip + 1) m = .ok len m₁) (hs : SbbStale m.opWidth m₁)
  | sbbI2a {len : Word} {m₁ : Machine P} (ho : opcode.toNat = 0x1d)
    (hd : decodeI2a m.opWidth (eip + 1) m = .ok len m₁) (hs : SbbStale m.opWidth m₁)
  | sbbI2rm {r len : Word} {m₁ m₂ : Machine P} (ho : opcode.toNat = 0x81)
    (hr : instrFetch (eip + 1) 1 m = .ok r m₁) (h3 : (bits35 r).val = 3)
    (hd : decodeI2rm m.opWidth (eip + 1) m₁ = .ok len m₂) (hs : SbbStale m.opWidth m₂)
  | pop (ho : 0x58 ≤ opcode.toNat ∧ opcode.toNat ≤ 0x5f) (hp : PopStale m.opWidth (bits02 m.ops.opcode) m)
  | bt {b : Word} {m₁ : Machine P} (ho : opcode.toNat = 0x0f) (hb : instrFetch (eip + 1) 1 m = .ok b m₁)
    (hb' : b.toNat = 0xba) (hd : BtStale m.opWidth (eip + 1) (m₁.setOpcode (b ||| 0x100)))
  | scasb (ho : opcode.toNat = 0xae) (hs : ScasStale .b m)
  | scasv (ho : opcode.toNat = 0xaf) (hs : ScasStale m.opWidth m)

/-! ### Where the leftovers do not show -/

theorem doSbb_alike_of_not [Knows Φ .src] [Knows Φ .dest] (h : Beside Φ s t) (hno : ¬ SbbStale d s) :
    Alike UpToOperands (doSbb d s) (doSbb d t) := by
  have hval : s.val .src = t.val .src := Seen.seen (f := (·.val .src)) s t h
  refine doSbb_alike h fun hw => ?_
  by_cases hsign : (s.val .src).getLsbD 7 = d.msb (s.val .src)
  · refine subOverflow_congr ?_
    rw [sbbVal_sign hsign, sbbVal_sign (by rwa [← hval]), hval]
  · by_cases hresult : d.msb (s.val .dest) = d.msb (sbbResult d s)
    · rw [subOverflow_of_eq hresult, subOverflow_of_eq hresult]
    · exact absurd ⟨hsign, hresult, hw⟩ hno

theorem idexSbb_alike {decode : Helper P} [hd : Decoding decode Φ] [Knows Φ .src] [Knows Φ .dest]
    (h : UpToOperands s t) (hno : ∀ len s', decode (eip + 1) s = .ok len s' → ¬ SbbStale d s') :
    Alike UpToOperands (idex decode (doSbb d) eip s) (idex decode (doSbb d) eip t) := by
  unfold idex
  refine (hd.leads (eip + 1) s t h).bind_of_run (fun _ _ => Beside.forget) fun len s' t' hs h' => ?_
  exact (doSbb_alike_of_not h' (hno len s' hs)).bind (fun _ _ h => h) fun _ _ _ h => ⟨rfl, h⟩

/-- A `pop` of a register. -/
theorem doPop_run {i : Fin 8} (htype : m.type .src = .reg) (hloc : m.loc .src = regNo i) :
    doPop d m = match readMem m.cpu (m.reg .l rESP) d.bytes (m.operand .src).sreg m.bus with
      | none => .abort .assertion
      | some (v, p) =>
        let c := m.cpu.setReg d i v
        match writeMem c (c.reg .l rESP) d.bytes 0 2 p with
        | none => .abort .assertion
        | some p => .ok () (((m.setReg d i v).setBus p).setReg .l rESP (c.reg .l rESP + d.len)) := by
  unfold doPop
  rw [read_bind_run, read_bind_run, bind_run, swaddrRead_run]
  cases readMem m.cpu (m.reg .l rESP) d.bytes (m.operand .src).sreg m.bus with
  | none => rw [if_pos d.len_ok]; rfl
  | some r =>
    have hw : writeOperand d .src r.1 (m.setBus r.2) = .ok () ((m.setBus r.2).setReg d i r.1) :=
      writeOperand_reg r.1 htype hloc
    dsimp only [andThen]
    rw [bind_ok hw, read_bind_run, bind_run, swaddrWrite_run]
    have hesp : ((m.setBus r.2).setReg d i r.1).reg .l rESP = (m.cpu.setReg d i r.1).reg .l rESP := rfl
    have hcpu : ((m.setBus r.2).setReg d i r.1).cpu = m.cpu.setReg d i r.1 := rfl
    have hbus : ((m.setBus r.2).setReg d i r.1).bus = r.2 := rfl
    rw [hesp, hcpu, hbus]
    cases writeMem (m.cpu.setReg d i r.1) ((m.cpu.setReg d i r.1).reg .l rESP) d.bytes 0 2 r.2 with
    | none => rw [if_pos d.len_ok]; rfl
    | some p => rfl

/-- The state in which `pop` of a register starts. -/
def popDecoded (d : Width) (m : Machine P) : Machine P :=
  ((m.setType .src .reg).setLoc .src (regNo (bits02 m.ops.opcode))).setVal .src
    (m.reg d (bits02 m.ops.opcode))

theorem opR_doPop_eq : opR doPop d eip m = (doPop d >>= fun _ => pure (0 + 1)) (popDecoded d m) := rfl

/-- `pop` of a register that returns. -/
theorem opR_doPop_ok (eip : Word) {v : Word} {p p' : P}
    (hr : readMem m.cpu (m.reg .l rESP) d.bytes (m.operand .src).sreg m.bus = some (v, p))
    (hw : writeMem (m.cpu.setReg d (bits02 m.ops.opcode) v)
      ((m.cpu.setReg d (bits02 m.ops.opcode) v).reg .l rESP) d.bytes 0 2 p = some p') :
    ∃ m', opR doPop d eip m = .ok 1 m' := by
  have hpop := doPop_run (d := d) (m := popDecoded d m) (i := bits02 m.ops.opcode) rfl rfl
  have hr' : readMem (popDecoded d m).cpu ((popDecoded d m).reg .l rESP) d.bytes
      ((popDecoded d m).operand .src).sreg (popDecoded d m).bus = some (v, p) := hr
  have hw' : writeMem ((popDecoded d m).cpu.setReg d (bits02 m.ops.opcode) v)
      (((popDecoded d m).cpu.setReg d (bits02 m.ops.opcode) v).reg .l rESP) d.bytes 0 2 p = some p' := hw
  rw [hr'] at hpop
  dsimp only at hpop
  rw [hw'] at hpop
  rw [opR_doPop_eq, bind_ok hpop]
  exact ⟨_, rfl⟩

/-- And one that fails. -/
theorem opR_doPop_fails (eip : Word)
    (hno : ∀ v p, readMem m.cpu (m.reg .l rESP) d.bytes (m.operand .src).sreg m.bus = some (v, p) →
      writeMem (m.cpu.setReg d (bits02 m.ops.opcode) v)
        ((m.cpu.setReg d (bits02 m.ops.opcode) v).reg .l rESP) d.bytes 0 2 p = none) :
    opR doPop d eip m = .abort .assertion := by
  have hpop := doPop_run (d := d) (m := popDecoded d m) (i := bits02 m.ops.opcode) rfl rfl
  rw [opR_doPop_eq, bind_run, hpop]
  have hread : readMem (popDecoded d m).cpu ((popDecoded d m).reg .l rESP) d.bytes
      ((popDecoded d m).operand .src).sreg (popDecoded d m).bus =
        readMem m.cpu (m.reg .l rESP) d.bytes (m.operand .src).sreg m.bus := rfl
  rw [hread]
  cases hr : readMem m.cpu (m.reg .l rESP) d.bytes (m.operand .src).sreg m.bus with
  | none => rfl
  | some r =>
    have hw : writeMem ((popDecoded d m).cpu.setReg d (bits02 m.ops.opcode) r.1)
        (((popDecoded d m).cpu.setReg d (bits02 m.ops.opcode) r.1).reg .l rESP) d.bytes 0 2 r.2 = none :=
      hno r.1 r.2 hr
    dsimp only
    rw [hw]
    rfl

/-- Without a word to pop the instruction fails. -/
theorem opR_doPop_aborts (hno : ¬ PopStale d (bits02 m.ops.opcode) m) :
    opR doPop d eip m = .abort .assertion := by
  refine opR_doPop_fails eip fun v p hr => Option.eq_none_iff_forall_ne_some.mpr fun p' hw => ?_
  exact hno ⟨⟨_, v, p, p', hr, hw⟩⟩

theorem opR_doPop_alike (h : UpToOperands s t) (hno : ¬ PopStale d (bits02 s.ops.opcode) s) :
    Alike UpToOperands (opR doPop d eip s) (opR doPop d eip t) := by
  obtain ⟨f, -⟩ := h
  have hno' : ¬ PopStale d (bits02 (s.withOperands f).ops.opcode) (s.withOperands f) :=
    fun h => hno ⟨h.pops⟩
  rw [opR_doPop_aborts hno, opR_doPop_aborts hno']
  rfl

theorem btI2rm_alike (h : UpToOperands s t) (hno : ¬ BtStale d eip s) :
    Alike UpToOperands (btI2rm d eip s) (btI2rm d eip t) := by
  unfold btI2rm
  have hrm : Leads UpToOperands (Beside (P := P) _) (decodeRm d (eip + 1)) := Decoding.leads _
  refine (hrm s t h).bind_of_run (fun _ _ => Beside.forget) fun len s₁ t₁ hs₁ h₁ => ?_
  refine (decodeI_leads .b (eip + 1 + len) s₁ t₁ h₁).bind_of_run (fun _ _ => Beside.forget)
    fun len' s₂ t₂ hs₂ h₂ => ?_
  exact absurd ⟨len, s₁, len', s₂, hs₁, hs₂⟩ hno

theorem doScas_run : doScas d m = match readMem m.cpu (m.reg .l rEDI) d.bytes 0 m.bus with
    | none => .abort .assertion
    | some (v, p) => (do
      setSubFlags d ((m.reg d rEAX).ult v) (m.val .dest) (m.val .src) (d.trunc (m.reg d rEAX - v))
      stepIndex d rEDI) (m.setBus p) := by
  have hread := swaddrRead_run (m.reg .l rEDI) d.bytes 0 m
  unfold doScas
  rw [read_bind_run]
  cases hr : readMem m.cpu (m.reg .l rEDI) d.bytes 0 m.bus with
  | none =>
    rw [hr, if_pos d.len_ok] at hread
    rw [bind_run, hread]
    rfl
  | some r =>
    have heax : (m.setBus r.2).reg d rEAX = m.reg d rEAX := rfl
    have hdest : (m.setBus r.2).val .dest = m.val .dest := rfl
    have hsrc : (m.setBus r.2).val .src = m.val .src := rfl
    rw [hr] at hread
    rw [bind_ok hread, read_bind_run, read_bind_run, read_bind_run, heax, hdest, hsrc]

theorem opN_doScas_eq : opN doScas d eip m = (doScas d >>= fun _ => pure (0 + 1)) (m.setType .src .imm) := rfl

/-- Without an element to read the instruction fails. -/
theorem opN_doScas_aborts (hno : ¬ ScasStale d m) : opN doScas d eip m = .abort .assertion := by
  rw [opN_doScas_eq, bind_run, doScas_run]
  have hcpu : (m.setType .src .imm).cpu = m.cpu := rfl
  have hedi : (m.setType .src .imm).reg .l rEDI = m.reg .l rEDI := rfl
  have hbus : (m.setType .src .imm).bus = m.bus := rfl
  rw [hcpu, hedi, hbus]
  cases hr : readMem m.cpu (m.reg .l rEDI) d.bytes 0 m.bus with
  | none => rfl
  | some r => exact absurd ⟨⟨r.1, r.2, hr⟩⟩ hno

theorem opN_doScas_alike (h : UpToOperands s t) (hno : ¬ ScasStale d s) :
    Alike UpToOperands (opN doScas d eip s) (opN doScas d eip t) := by
  obtain ⟨f, -⟩ := h
  have hno' : ¬ ScasStale d (s.withOperands f) := fun h => hno ⟨h.reads⟩
  rw [opN_doScas_aborts hno, opN_doScas_aborts hno']
  rfl

set_option maxRecDepth 20000 in
/-- The stale opcodes. -/
theorem stale_tables :
    entry (opcodeTable (P := P) inv 0) 0x19 = helperV (opR2rm doSbb) ∧
    entry (opcodeTable (P := P) inv 0) 0x1d = helperV (opI2a doSbb) ∧
    entry (opcodeTable (P := P) inv 0) 0x81 = group group1V ∧
    entry (group1V (P := P)) 3 = helperV (opI2rm doSbb) ∧
    (∀ k, 0x58 ≤ k ∧ k ≤ 0x5f → entry (opcodeTable (P := P) inv 0) k = helperV (opR doPop)) ∧
    entry (opcodeTable (P := P) inv 0) 0x0f = twoByteEsc ∧
    entry (opcodeTable2 (P := P)) 0xba = helperV btI2rm ∧
    entry (opcodeTable (P := P) inv 0) 0xae = opN doScas .b ∧
    entry (opcodeTable (P := P) inv 0) 0xaf = helperV (opN doScas) := by
  refine ⟨rfl, rfl, rfl, rfl, fun k hk => ?_, rfl, rfl, rfl, rfl⟩
  obtain ⟨hlow, hhigh⟩ := hk
  interval_cases k <;> rfl

/-- Every other opcode. -/
theorem syncs_entry {k : ℕ} (hk : k ∉ staleOpcodes) (eip : Word) :
    Syncs UpToOperands (entry (opcodeTable (P := P) inv 0) k eip) := by
  rw [← entry_without hk]
  infer_instance

theorem stale_cases {k : ℕ} (hk : k ∉ [0x66, 0xf2, 0xf3]) : k ∉ staleOpcodes ∨ k = 0x19 ∨ k = 0x1d ∨
    k = 0x81 ∨ (0x58 ≤ k ∧ k ≤ 0x5f) ∨ k = 0x0f ∨ k = 0xae ∨ k = 0xaf := by
  simp only [staleOpcodes, List.mem_cons, List.not_mem_nil, or_false, not_or] at hk ⊢
  omega

omit [Bus P] in
theorem Beside.opWidth (h : Beside Φ s t) : s.opWidth = t.opWidth := by
  obtain ⟨f, -⟩ := h
  rfl

/-- A fetch does not change the operand size. -/
theorem opWidth_fetch {v : Word} {len : ℕ} (h : instrFetch eip len m = .ok v s) : s.opWidth = m.opWidth := by
  unfold Machine.opWidth
  rw [(fetch_same h).2]

/-- `bt` with an immediate among the two-byte opcodes. -/
theorem twoByteEsc_alike (h : UpToOperands s t) (hno : ∀ b m, instrFetch (eip + 1) 1 s = .ok b m →
    b.toNat = 0xba → ¬ BtStale s.opWidth (eip + 1) (m.setOpcode (b ||| 0x100))) :
    Alike UpToOperands (twoByteEsc eip s) (twoByteEsc eip t) := by
  unfold twoByteEsc
  refine (Syncs.alike s t h).bind_of_run (fun _ _ h => h) fun b s₁ t₁ hb h₁ => ?_
  rw [write_bind_run, write_bind_run]
  have h₂ : UpToOperands (s₁.setOpcode (b ||| 0x100)) (t₁.setOpcode (b ||| 0x100)) :=
    Synced.synced (g := (Machine.setOpcode · _)) s₁ t₁ h₁
  by_cases hba : b.toNat = 0xba
  · have hwidth : (s₁.setOpcode (b ||| 0x100)).opWidth = s.opWidth := opWidth_fetch (s := s₁) hb
    refine Alike.bind (R := UpToOperands) ?_ (fun _ _ h => h) fun len _ _ h => ⟨rfl, h⟩
    rw [hba, stale_tables.2.2.2.2.2.2.1, helperV_run, helperV_run, ← h₂.opWidth, hwidth]
    exact btI2rm_alike h₂ (hno b s₁ hb hba)
  · have hsyncs : Syncs UpToOperands (entry (opcodeTable2 (P := P)) b.toNat (eip + 1)) := by
      have hk : b.toNat ∉ [0xba] := by simpa using hba
      rw [← entry_without hk]
      infer_instance
    exact (hsyncs.alike _ _ h₂).bind (fun _ _ h => h) fun len _ _ h => ⟨rfl, h⟩

/-- An instruction that is not stale runs alike. -/
theorem instr_alike {opcode : Word} (hk : opcode.toNat ∉ [0x66, 0xf2, 0xf3]) (h : UpToOperands s t)
    (hno : ¬ Stale opcode eip s) :
    Alike UpToOperands (instrAt opcode eip s) (instrAt opcode eip t) := by
  obtain ⟨hr2rm, hi2a, hgroup, hi2rm, hpop, hesc, -, hscasb, hscasv⟩ := stale_tables (P := P)
  have hwidth := h.opWidth
  unfold instrAt
  rcases stale_cases hk with ho | ho | ho | ho | ho | ho | ho | ho
  · exact (syncs_entry ho eip).alike s t h
  · rw [ho, hr2rm, helperV_run, helperV_run, ← hwidth]
    exact idexSbb_alike h fun len m hd hs => hno (.sbbR2rm ho hd hs)
  · rw [ho, hi2a, helperV_run, helperV_run, ← hwidth]
    exact idexSbb_alike h fun len m hd hs => hno (.sbbI2a ho hd hs)
  · rw [ho, hgroup]
    unfold group
    refine (Syncs.alike s t h).bind_of_run (fun _ _ h => h) fun r s₁ t₁ hr h₁ => ?_
    by_cases h3 : (bits35 r).val = 3
    · rw [h3, hi2rm, helperV_run, helperV_run, ← h₁.opWidth, opWidth_fetch hr]
      exact idexSbb_alike h₁ fun len m hd hs => hno (.sbbI2rm ho hr h3 hd hs)
    · have hsyncs : Syncs UpToOperands (entry (group1V (P := P)) (bits35 r).val eip) := by
        have hk : (bits35 r).val ∉ [3] := by simpa using h3
        rw [← entry_without hk]
        infer_instance
      exact hsyncs.alike _ _ h₁
  · rw [hpop _ ho, helperV_run, helperV_run, ← hwidth]
    exact opR_doPop_alike h fun hp => hno (.pop ho hp)
  · rw [ho, hesc]
    exact twoByteEsc_alike h fun b m hb hba hd => hno (.bt ho hb hba hd)
  · rw [ho, hscasb]
    exact opN_doScas_alike h fun hs => hno (.scasb ho hs)
  · rw [ho, hscasv, helperV_run, helperV_run, ← hwidth]
    exact opN_doScas_alike h fun hs => hno (.scasv ho hs)

/-! ### Prefixes -/

/-- The states in which a repetition starts a round. -/
inductive Rounds (exec : Helper P) (z : Bool) (eip : Word) : ℕ → Machine P → Machine P → Prop
  | first {fuel : ℕ} {m : Machine P} (hecx : m.reg .l rECX ≠ 0) : Rounds exec z eip (fuel + 1) m m
  | next {fuel : ℕ} {len : Word} {m m₁ m' : Machine P} (hecx : m.reg .l rECX ≠ 0)
    (hrun : exec (eip + 1) m = .ok len m₁) (hgo : ¬ (compares m₁.ops.opcode = true ∧ m₁.flag .ZF = z))
    (h : Rounds exec z eip fuel (m₁.setReg .l rECX (m₁.reg .l rECX - 1)) m') :
    Rounds exec z eip (fuel + 1) m m'

/-- The instructions that `exec` executes: their opcodes, their addresses, and the
states in which they start, with the opcode fetched. A prefix is one, and so is
what stands behind it, once or in each round. -/
inductive Executes : ℕ → Word → Machine P → Word → Word → Machine P → Prop
  | here {fuel : ℕ} {eip opcode : Word} {m m₁ : Machine P} (hf : instrFetch eip 1 m = .ok opcode m₁) :
    Executes (fuel + 1) eip m opcode eip (m₁.setOpcode opcode)
  | operandSize {fuel : ℕ} {eip opcode o e : Word} {m m₁ m' : Machine P}
    (hf : instrFetch eip 1 m = .ok opcode m₁) (ho : opcode.toNat = 0x66)
    (h : Executes fuel (eip + 1) ((m₁.setOpcode opcode).setOperandSize16 true) o e m') :
    Executes (fuel + 1) eip m o e m'
  | repnz {fuel : ℕ} {eip opcode o e : Word} {m m₁ m₂ m' : Machine P}
    (hf : instrFetch eip 1 m = .ok opcode m₁) (ho : opcode.toNat = 0xf2)
    (hr : Rounds (exec fuel) true eip fuel (m₁.setOpcode opcode) m₂)
    (h : Executes fuel (eip + 1) m₂ o e m') : Executes (fuel + 1) eip m o e m'
  | repRet {fuel : ℕ} {eip opcode o e : Word} {m m₁ m₂ m' : Machine P}
    (hf : instrFetch eip 1 m = .ok opcode m₁) (ho : opcode.toNat = 0xf3)
    (hn : instrFetch (eip + 1) 1 (m₁.setOpcode opcode) = .ok 0xc3 m₂)
    (h : Executes fuel (eip + 1) m₂ o e m') : Executes (fuel + 1) eip m o e m'
  | rep {fuel : ℕ} {eip opcode next o e : Word} {m m₁ m₂ m₃ m' : Machine P}
    (hf : instrFetch eip 1 m = .ok opcode m₁) (ho : opcode.toNat = 0xf3)
    (hn : instrFetch (eip + 1) 1 (m₁.setOpcode opcode) = .ok next m₂) (hret : next ≠ 0xc3)
    (hr : Rounds (exec fuel) false eip fuel m₂ m₃)
    (h : Executes fuel (eip + 1) m₃ o e m') : Executes (fuel + 1) eip m o e m'

/-- Without a prefix only one instruction is executed. -/
theorem Executes.eq_of_fetch {fuel : ℕ} {opcode o e : Word} {m₁ m' : Machine P} (h : Executes fuel eip m o e m')
    (hf : instrFetch eip 1 m = .ok opcode m₁) (hk : opcode.toNat ∉ [0x66, 0xf2, 0xf3]) : o = opcode := by
  have hfetch {v : Word} {m₂ : Machine P} (hv : instrFetch eip 1 m = .ok v m₂) : v = opcode := by
    rw [hf] at hv
    exact (Outcome.ok.inj hv).1.symm
  cases h with
  | here hv => exact hfetch hv
  | operandSize hv ho => exact absurd (hfetch hv ▸ ho) fun h => hk (by simp [h])
  | repnz hv ho => exact absurd (hfetch hv ▸ ho) fun h => hk (by simp [h])
  | repRet hv ho => exact absurd (hfetch hv ▸ ho) fun h => hk (by simp [h])
  | rep hv ho => exact absurd (hfetch hv ▸ ho) fun h => hk (by simp [h])

instance (name count : ℕ) : Syncs (Beside Φ) (printRep (P := P) name count) := by
  unfold printRep
  infer_instance

omit [Bus P] in
theorem repLoop_alike {e : Helper P} {z : Bool} {fuel count : ℕ} (h : UpToOperands s t)
    (hround : ∀ m m', Rounds e z eip fuel s m → UpToOperands m m' →
      Alike UpToOperands (e (eip + 1) m) (e (eip + 1) m')) :
    Alike UpToOperands (repLoop e z eip fuel count s) (repLoop e z eip fuel count t) := by
  induction fuel generalizing s t count with
  | zero => trivial
  | succ fuel ih =>
    have hecx : s.reg .l rECX = t.reg .l rECX := Seen.seen (f := (·.reg .l rECX)) s t h
    unfold repLoop
    rw [read_bind_run, read_bind_run, ← hecx]
    by_cases h0 : s.reg .l rECX = 0
    · rw [if_pos h0]
      exact ⟨rfl, h⟩
    · rw [if_neg h0]
      refine (hround s t (.first h0) h).bind_of_run (fun _ _ h => h) fun len s₁ t₁ hs h₁ => ?_
      rw [bind_run, bind_run, countUp_run, countUp_run]
      by_cases hfits : count + 1 < 2 ^ 31
      case neg =>
        rw [if_neg hfits, if_neg hfits]
        exact rfl
      rw [if_pos hfits, if_pos hfits]
      dsimp only [andThen]
      have hcount : s₁.reg .l rECX = t₁.reg .l rECX := Seen.seen (f := (·.reg .l rECX)) s₁ t₁ h₁
      have h₂ : UpToOperands (s₁.setReg .l rECX (s₁.reg .l rECX - 1)) (t₁.setReg .l rECX (s₁.reg .l rECX - 1)) :=
        Synced.synced (g := (Machine.setReg · _ _ _)) s₁ t₁ h₁
      have hopcode : s₁.ops.opcode = t₁.ops.opcode := Seen.seen (f := (·.ops.opcode)) s₁ t₁ h₁
      have hzf : s₁.flag .ZF = t₁.flag .ZF := Seen.seen (f := (·.flag .ZF)) s₁ t₁ h₁
      rw [read_bind_run, read_bind_run, ← hcount, write_bind_run, write_bind_run, read_bind_run,
        read_bind_run, read_bind_run, read_bind_run]
      change Alike _ ((if compares s₁.ops.opcode = true ∧ s₁.flag .ZF = z then _ else _ : Cmd _ _) _)
        ((if compares t₁.ops.opcode = true ∧ t₁.flag .ZF = z then _ else _ : Cmd _ _) _)
      rw [← hopcode, ← hzf]
      by_cases hstop : compares s₁.ops.opcode = true ∧ s₁.flag .ZF = z
      · rw [if_pos hstop]
        exact ⟨rfl, h₂⟩
      · rw [if_neg hstop]
        exact ih h₂ fun m m' hm hmm' => hround m m' (.next h0 hs hstop hm) hmm'

theorem prefix_cases (k : ℕ) : k = 0x66 ∨ k = 0xf2 ∨ k = 0xf3 ∨ k ∉ [0x66, 0xf2, 0xf3] := by
  simp only [List.mem_cons, List.not_mem_nil, or_false]
  omega

/-- Where no stale instruction is executed, two runs end alike. -/
theorem exec_alike {fuel : ℕ} (h : UpToOperands s t)
    (hno : ∀ o e m, Executes fuel eip s o e m → ¬ Stale o e m) :
    Alike UpToOperands (exec fuel eip s) (exec fuel eip t) := by
  induction fuel generalizing eip s t with
  | zero => trivial
  | succ fuel ih =>
    unfold exec
    refine (Syncs.alike s t h).bind_of_run (fun _ _ h => h) fun opcode s₁ t₁ hf h₁ => ?_
    have h₂ : UpToOperands (s₁.setOpcode opcode) (t₁.setOpcode opcode) :=
      Synced.synced (g := (Machine.setOpcode · _)) s₁ t₁ h₁
    rw [write_bind_run, write_bind_run]
    rcases prefix_cases opcode.toNat with hk | hk | hk | hk
    · rw [hk, entry_operandSize]
      unfold operandSize
      rw [write_bind_run, write_bind_run]
      have h₃ : UpToOperands ((s₁.setOpcode opcode).setOperandSize16 true)
          ((t₁.setOpcode opcode).setOperandSize16 true) :=
        Synced.synced (g := (Machine.setOperandSize16 · _)) _ _ h₂
      refine (ih h₃ fun o e m hx => hno o e m (.operandSize hf hk hx)).bind (fun _ _ h => h) fun len s' t' h' => ?_
      exact Syncs.alike s' t' h'
    · rw [hk, entry_repnz]
      unfold repnz
      refine (repLoop_alike h₂ fun m m' hm hmm' => ih hmm' ?_).bind (fun _ _ h => h) fun _ s' t' h' =>
        Syncs.alike s' t' h'
      exact fun o e m' hx => hno o e m' (.repnz hf hk hm hx)
    · rw [hk, entry_rep]
      unfold rep
      refine (Syncs.alike _ _ h₂).bind_of_run (fun _ _ h => h) fun next s₂ t₂ hn h₃ => ?_
      by_cases hret : next = 0xc3
      · rw [if_pos hret]
        rw [hret] at hn
        refine (ih h₃ ?_).bind (fun _ _ h => h) fun _ s' t' h' => Syncs.alike s' t' h'
        exact fun o e m' hx => hno o e m' (.repRet hf hk hn hx)
      · rw [if_neg hret]
        refine (repLoop_alike h₃ fun m m' hm hmm' => ih hmm' ?_).bind (fun _ _ h => h) fun _ s' t' h' =>
          Syncs.alike s' t' h'
        exact fun o e m' hx => hno o e m' (.rep hf hk hn hret hm hx)
    · rw [entry_opcodeTable hk _ inv fuel 0]
      exact instr_alike hk h₂ (hno _ _ _ (.here hf))

/-! ### Where they show -/

/-- The same registers, memory and devices. -/
def SameState (s t : Machine P) : Prop := s.cpu = t.cpu ∧ s.bus = t.bus

/-- The result of the command depends on the operand records. -/
def Depends (c : Cmd (Machine P) Word) (m : Machine P) : Prop :=
  ∃ f f', ¬ Alike SameState (c (m.withOperands f)) (c (m.withOperands f'))

omit [Bus P] in
theorem SameState.flag (h : SameState s t) (f : Flag) : s.flag f = t.flag f := congrArg (CpuState.flag · f) h.1

/-- A fetch does not look at the records. -/
theorem fetch_withOperands {v : Word} {len : ℕ} (h : instrFetch eip len m = .ok v s) (f : Slot → Operand) :
    instrFetch eip len (m.withOperands f) = .ok v (s.withOperands f) := by
  have hf : Beside (fun _ g => g = f) m (m.withOperands f) := .intro m f rfl
  obtain ⟨t, ht, hst⟩ := (Syncs.alike (c := instrFetch eip len) _ _ hf).ok h
  obtain ⟨f', rfl⟩ := hst
  exact ht

/-- The overflow flag after `sbb`. -/
theorem doSbb_overflow [Knows Φ .src] [Knows Φ .dest] (h : Beside Φ s t)
    (hw : ∃ m, writeOperand d .dest (sbbResult d s) s = .ok () m) :
    ∃ m, doSbb d t = .ok () m ∧ m.flag .OF = subOverflow d (s.val .dest) (sbbVal t) (sbbResult d s) := by
  obtain ⟨hdest, hsrc, hresult⟩ := sbb_known (d := d) h
  obtain ⟨s', hs'⟩ := hw
  obtain ⟨t', ht', -⟩ := (Syncs.alike (c := writeOperand d .dest (sbbResult d s)) _ _
    (h.setVal_src (sbbVal t))).ok hs'
  obtain ⟨m, hm, -, hof, -⟩ := setSubFlags_run d ((s.val .dest).ult (sbbSrc d s)) (s.val .dest) (sbbVal t)
    (sbbResult d s) t'
  refine ⟨m, ?_, hof⟩
  rw [doSbb_run, write_bind_run, ← hdest, ← hsrc, ← hresult, bind_ok ht', hm]

/-- The flag differs. -/
theorem subOverflow_ne {dest x y r : Word} (hxy : d.msb x ≠ d.msb y) (hr : d.msb dest ≠ d.msb r) :
    subOverflow d dest x r ≠ subOverflow d dest y r := by
  unfold subOverflow
  revert hxy hr
  generalize d.msb x = bx, d.msb y = cx, d.msb dest = bd, d.msb r = br
  revert bx cx bd br
  decide

/-- The records with these sizes. -/
def resized (m : Machine P) (n : ℕ) (k : Slot) : Operand :=
  { m.operand k with size := if k = .src then n else 4 }

/-- What is left in `size` is seen by `sbb`. -/
theorem idexSbb_depends {decode : Helper P} {len : Word} [hd : Decoding decode Φ] [Knows Φ .src]
    [Knows Φ .dest] (hrun : decode (eip + 1) m = .ok len s) (hs : SbbStale d s)
    (hsize : ∀ n t, decode (eip + 1) (m.withOperands (resized m n)) = .ok len t →
      (t.operand .src).size = n ∧ (t.operand .dest).size ≠ 1) :
    Depends (idex decode (doSbb d) eip) m := by
  -- the outcome when `n` is left in the size of `op_src`
  have hsbb (n : ℕ) : ∃ t t', decode (eip + 1) (m.withOperands (resized m n)) = .ok len t ∧
      doSbb d t = .ok () t' ∧ t'.flag .OF = subOverflow d (s.val .dest)
        (if n = 1 then Width.sext .b (s.val .src) else s.val .src) (sbbResult d s) := by
    obtain ⟨t, ht, hst⟩ := (hd.leads (eip + 1) _ _ (.intro m (resized m n) trivial)).ok hrun
    obtain ⟨t', ht', hof⟩ := doSbb_overflow hst hs.writes
    obtain ⟨hsrc, hdest⟩ := hsize n t ht
    have hval : s.val .src = t.val .src := Seen.seen (f := (·.val .src)) s t hst
    refine ⟨t, t', ht, ht', ?_⟩
    rw [hof, sbbVal, hsrc, hval]
    by_cases hn : n = 1
    · rw [if_pos hn, if_pos ⟨hn, hdest⟩]
    · rw [if_neg hn, if_neg fun h => hn h.1]
  obtain ⟨t₁, t₁', hdec₁, hrun₁, hof₁⟩ := hsbb 1
  obtain ⟨t₂, t₂', hdec₂, hrun₂, hof₂⟩ := hsbb 2
  refine ⟨resized m 1, resized m 2, fun halike => ?_⟩
  unfold idex at halike
  rw [bind_ok hdec₁, bind_ok hdec₂, bind_ok hrun₁, bind_ok hrun₂] at halike
  have hflag := halike.2.flag .OF
  rw [hof₁, hof₂, if_pos rfl, if_neg (by decide)] at hflag
  exact subOverflow_ne (by rw [msb_sext_b]; exact hs.sign) hs.result hflag

section Sizes

variable {k k' : Slot} {n : ℕ}

omit [Bus P] in
instance [hne : Fact (k ≠ k')] (n' : ℕ) : Kept (SizeIs (P := P) k n) (Machine.setSize · k' n') :=
  ⟨fun _ h => h.setOperand fun hk => absurd hk hne.out⟩

instance (eip : Word) : Keeps (SizeIs k n) (decodeI (P := P) d eip) := by
  unfold decodeI
  infer_instance

/-- The decoders of `sbb` leave the size of `op_src`. -/
instance (eip : Word) : Keeps (SizeIs .src n) (decodeR2rm (P := P) d eip) := by
  unfold decodeR2rm decodeRmInternal
  infer_instance

instance (eip : Word) : Keeps (SizeIs k n) (decodeI2a (P := P) d eip) := by
  unfold decodeI2a decodeA
  infer_instance

instance (eip : Word) : Keeps (SizeIs .src n) (decodeI2rm (P := P) d eip) := by
  unfold decodeI2rm decodeRmInternal
  infer_instance

end Sizes

omit [Bus P] in
theorem bytes_opWidth (m : Machine P) : m.opWidth.bytes ≠ 1 := by
  unfold Machine.opWidth
  split <;> decide

/-- What follows a fetch depends on the records. -/
theorem Depends.fetch {v : Word} {k : Word → Cmd (Machine P) Word} (h : instrFetch eip 1 m = .ok v s)
    (hk : Depends (k v) s) : Depends (instrFetch eip 1 >>= k) m := by
  obtain ⟨f, f', hne⟩ := hk
  refine ⟨f, f', ?_⟩
  rwa [bind_ok (fetch_withOperands h f), bind_ok (fetch_withOperands h f')]

omit [Bus P] in
theorem Depends.helperV {h : Width → Helper P} (hd : Depends (h m.opWidth eip) m) : Depends (helperV h eip) m := by
  obtain ⟨f, f', hne⟩ := hd
  refine ⟨f, f', ?_⟩
  rwa [helperV_run, helperV_run]

theorem decodeR2rm_size (d : Width) (eip : Word) (m : Machine P) :
    Ends (fun _ => SizeIs .dest d.bytes) (fun _ => True) (decodeR2rm d eip m) :=
  decodeRmInternal_size d eip m

theorem decodeI2rm_size (d : Width) (eip : Word) (m : Machine P) :
    Ends (fun _ => SizeIs .dest d.bytes) (fun _ => True) (decodeI2rm d eip m) := by
  unfold decodeI2rm
  refine (decodeRmInternal_size d eip m).bind fun len m' h => ?_
  exact (Keeps.post h).bind fun _ _ h => h

/-- What is left in `op_src->sreg` is seen by `pop`: there is no fifth segment. -/
theorem opR_doPop_depends (h : PopStale d (bits02 m.ops.opcode) m) : Depends (opR doPop d eip) m := by
  obtain ⟨sreg, v, p, p', hr, hw⟩ := h
  let f (n : ℕ) (k : Slot) : Operand := { m.operand k with sreg := n }
  obtain ⟨t, ht⟩ := opR_doPop_ok (d := d) (m := m.withOperands (f sreg)) eip hr hw
  have hfails : opR doPop d eip (m.withOperands (f 4)) = .abort .assertion := by
    refine opR_doPop_fails eip fun v p hr => ?_
    have hnone : readMem m.cpu (m.reg .l rESP) d.bytes 4 m.bus = none :=
      if_neg fun h => absurd h.2 (Nat.lt_irrefl 4)
    exact nomatch hnone.symm.trans hr
  refine ⟨f sreg, f 4, ?_⟩
  rw [ht, hfails]
  exact fun h => h

/-- `bt` of a register. -/
theorem doBt_reg (htype : m.type .dest = .reg) :
    doBt d m = .ok () (m.setFlag .CF ((m.val .dest).getLsbD ((m.val .src).toNat % d.bits))) := by
  unfold doBt
  rw [read_bind_run, read_bind_run, if_pos htype]
  rfl

/-- What is left in `op_dest` is tested by `bt` with an immediate. -/
theorem btI2rm_depends (h : BtStale d eip m) : Depends (btI2rm d eip) m := by
  obtain ⟨len, m₁, len', m₂, hrm, hi⟩ := h
  have hbt (v : Word) : ∃ t, btI2rm d eip (m.withOperands fun _ => ⟨.reg, 0, 0, 0, v⟩) = .ok (1 + (len + len')) t ∧
      t.flag .CF = v.getLsbD ((m₂.val .src).toNat % d.bits) := by
    have h₀ : Beside (fun _ g => g .dest = ⟨.reg, 0, 0, 0, v⟩) m (m.withOperands fun _ => ⟨.reg, 0, 0, 0, v⟩) :=
      .intro m _ rfl
    have hleads := decodeRmInternal_leads (P := P) (Φ := fun _ g => g .dest = ⟨.reg, 0, 0, 0, v⟩) d (eip + 1)
      (by decide : Slot.src ≠ .src2)
    obtain ⟨t₁, ht₁, h₁⟩ := (hleads _ _ h₀).ok hrm
    obtain ⟨t₂, ht₂, h₂⟩ := (decodeI_leads .b (eip + 1 + len) _ _ h₁).ok hi
    have hval : m₂.val .src = t₂.val .src := Seen.seen (f := (·.val .src)) m₂ t₂ h₂
    have hdest : t₂.operand .dest = ⟨.reg, 0, 0, 0, v⟩ := by
      obtain ⟨f, -, g, g', ⟨-, h, h', ⟨-, e, e', he, hj⟩, hj'⟩, hj''⟩ := h₂
      calc
        f .dest = g' .dest := (hj'' .dest (by decide)).2
        _ = h' .dest := (hj' .dest (by decide)).2
        _ = e' .dest := (hj .dest (by decide)).2
        _ = ⟨.reg, 0, 0, 0, v⟩ := he
    have htype : t₂.type .dest = .reg := congrArg Operand.type hdest
    have hdestval : t₂.val .dest = v := congrArg Operand.val hdest
    refine ⟨t₂.setFlag .CF (v.getLsbD ((m₂.val .src).toNat % d.bits)), ?_, ?_⟩
    · unfold btI2rm decodeRm
      rw [bind_ok ht₁, bind_ok ht₂, bind_ok (doBt_reg htype), hdestval, hval]
      rfl
    · rw [Machine.flag_setFlag, if_pos rfl]
  obtain ⟨t, ht, hcf⟩ := hbt 0#32
  obtain ⟨t', ht', hcf'⟩ := hbt (BitVec.allOnes 32)
  refine ⟨fun _ => ⟨.reg, 0, 0, 0, 0#32⟩, fun _ => ⟨.reg, 0, 0, 0, BitVec.allOnes 32⟩, fun halike => ?_⟩
  rw [ht, ht'] at halike
  have hflag := halike.2.flag .CF
  have hlt : (m₂.val .src).toNat % d.bits < 32 := Nat.lt_of_lt_of_le (Nat.mod_lt _ d.bits_pos) d.bits_le
  rw [hcf, hcf', BitVec.getLsbD_zero, BitVec.getLsbD_allOnes, decide_eq_true hlt] at hflag
  exact Bool.false_ne_true hflag

/-- Both values of the overflow flag are possible for a result. -/
theorem subOverflow_surjective (d : Width) (r : Word) (b : Bool) :
    ∃ dest src, subOverflow d dest src r = b := by
  have hzero : d.msb 0 = false := by cases d <;> rfl
  have hones : d.msb (BitVec.allOnes 32) = true := by cases d <;> rfl
  cases b with
  | false => exact ⟨0, 0, by rw [subOverflow, hzero]; rfl⟩
  | true =>
    cases hr : d.msb r with
    | false => exact ⟨BitVec.allOnes 32, 0, by rw [subOverflow, hzero, hones, hr]; rfl⟩
    | true => exact ⟨0, BitVec.allOnes 32, by rw [subOverflow, hzero, hones, hr]; rfl⟩

/-- The overflow flag after `scas`. -/
theorem doScas_overflow {v : Word} {p : P} (hr : readMem m.cpu (m.reg .l rEDI) d.bytes 0 m.bus = some (v, p)) :
    ∃ m', doScas d m = .ok () m' ∧
      m'.flag .OF = subOverflow d (m.val .dest) (m.val .src) (d.trunc (m.reg d rEAX - v)) := by
  obtain ⟨t, ht, -, hof, -⟩ := setSubFlags_run d ((m.reg d rEAX).ult v) (m.val .dest) (m.val .src)
    (d.trunc (m.reg d rEAX - v)) (m.setBus p)
  have hstep : stepIndex d rEDI t =
      .ok () (t.setReg .l rEDI (if t.flag .DF then t.reg .l rEDI - d.len else t.reg .l rEDI + d.len)) := rfl
  rw [doScas_run, hr]
  dsimp only
  rw [bind_ok ht, hstep]
  exact ⟨_, rfl, (t.flag_setReg _ _ _ _).trans hof⟩

/-- What is left in `val` is compared by `scas`. -/
theorem opN_doScas_depends (h : ScasStale d m) : Depends (opN doScas d eip) m := by
  obtain ⟨v, p, hr⟩ := h
  have hscas (b : Bool) : ∃ f t, opN doScas d eip (m.withOperands f) = .ok (0 + 1) t ∧ t.flag .OF = b := by
    obtain ⟨dest, src, hb⟩ := subOverflow_surjective d (d.trunc (m.reg d rEAX - v)) b
    let f (k : Slot) : Operand := { m.operand k with val := if k = .src then src else dest }
    obtain ⟨t, ht, hof⟩ := doScas_overflow (m := (m.withOperands f).setType .src .imm) hr
    refine ⟨f, t, ?_, hof.trans hb⟩
    rw [opN_doScas_eq, bind_ok ht]
    rfl
  obtain ⟨f, t, ht, hof⟩ := hscas false
  obtain ⟨f', t', ht', hof'⟩ := hscas true
  refine ⟨f, f', fun halike => ?_⟩
  rw [ht, ht'] at halike
  have hflag := halike.2.flag .OF
  rw [hof, hof'] at hflag
  exact Bool.false_ne_true hflag

/-- **The stale instructions depend on the records.** -/
theorem Stale.depends {opcode : Word} (h : Stale opcode eip m) : Depends (instrAt opcode eip) m := by
  obtain ⟨hr2rm, hi2a, hgroup, hi2rm, hpop, hesc, hbt, hscasb, hscasv⟩ := stale_tables (P := P)
  unfold instrAt
  cases h with
  | sbbR2rm ho hd hs =>
    rw [ho, hr2rm]
    refine .helperV (idexSbb_depends hd hs fun n t ht => ⟨Keeps.ok (I := SizeIs .src n) ht rfl, ?_⟩)
    have hsize := decodeR2rm_size m.opWidth (eip + 1) (m.withOperands (resized m n))
    rw [ht] at hsize
    exact hsize.symm ▸ bytes_opWidth m
  | sbbI2a ho hd hs =>
    rw [ho, hi2a]
    refine .helperV (idexSbb_depends hd hs fun n t ht => ⟨Keeps.ok (I := SizeIs .src n) ht rfl, ?_⟩)
    have hsize : SizeIs .dest 4 t := Keeps.ok ht rfl
    exact hsize.symm ▸ by decide
  | @sbbI2rm r len m₁ m₂ ho hr h3 hd hs =>
    rw [ho, hgroup]
    refine .fetch hr ?_
    rw [h3, hi2rm]
    refine .helperV ?_
    rw [opWidth_fetch hr]
    refine idexSbb_depends hd hs fun n t ht => ⟨Keeps.ok (I := SizeIs .src n) ht rfl, ?_⟩
    have hsize := decodeI2rm_size m.opWidth (eip + 1) (m₁.withOperands (resized m₁ n))
    rw [ht] at hsize
    exact hsize.symm ▸ bytes_opWidth m
  | pop ho hp =>
    rw [hpop _ ho]
    exact .helperV (opR_doPop_depends hp)
  | @bt b m₁ ho hb hba hd =>
    rw [ho, hesc]
    refine .fetch hb ?_
    obtain ⟨f, f', hne⟩ := btI2rm_depends hd
    refine ⟨f, f', fun halike => hne ?_⟩
    rw [write_bind_run, write_bind_run, hba, hbt] at halike
    have hinner := Alike.of_bind (f := (· + 1)) (g := id) (fun _ _ => rfl) (fun _ _ => (BitVec.add_left_inj 1).mp)
      (fun _ _ h => h) halike
    have hwidth (g : Slot → Operand) : ((m₁.withOperands g).setOpcode (b ||| 0x100)).opWidth = m.opWidth :=
      opWidth_fetch (s := m₁) hb
    rwa [helperV_run, helperV_run, hwidth, hwidth] at hinner
  | scasb ho hs =>
    rw [ho, hscasb]
    exact opN_doScas_depends hs
  | scasv ho hs =>
    rw [ho, hscasv]
    exact .helperV (opN_doScas_depends hs)

theorem Stale.mem_staleOpcodes {opcode : Word} (h : Stale opcode eip m) : opcode.toNat ∈ staleOpcodes := by
  simp only [staleOpcodes, List.mem_cons, List.not_mem_nil, or_false]
  cases h <;> omega

theorem Stale.no_prefix {opcode : Word} (h : Stale opcode eip m) : opcode.toNat ∉ [0x66, 0xf2, 0xf3] := by
  simp only [List.mem_cons, List.not_mem_nil, or_false, not_or]
  cases h <;> omega

/-- So does what stands behind prefixes of the operand size. -/
theorem Executes.depends {fuel : ℕ} {o e : Word} {m' : Machine P} (h : Executes fuel eip m o e m')
    (hs : Stale o e m')
    (hrep : ∀ o e m', Executes fuel eip m o e m' → o.toNat ∉ [0xf2, 0xf3]) : Depends (exec fuel eip) m := by
  induction h with
  | @here fuel eip opcode m m₁ hf =>
    obtain ⟨f, f', hne⟩ := hs.depends
    refine ⟨f, f', ?_⟩
    unfold exec
    rw [bind_ok (fetch_withOperands hf f), bind_ok (fetch_withOperands hf f'), write_bind_run, write_bind_run,
      entry_opcodeTable hs.no_prefix _ inv fuel 0]
    exact hne
  | @operandSize fuel eip opcode o e m m₁ m' hf ho h ih =>
    obtain ⟨f, f', hne⟩ := ih hs fun o e m' h => hrep o e m' (.operandSize hf ho h)
    refine ⟨f, f', fun halike => hne ?_⟩
    unfold exec at halike
    rw [bind_ok (fetch_withOperands hf f), bind_ok (fetch_withOperands hf f'), write_bind_run, write_bind_run,
      ho, entry_operandSize] at halike
    unfold Nemu.operandSize at halike
    rw [write_bind_run, write_bind_run] at halike
    exact Alike.of_bind (f := (· + 1)) (g := (Machine.setOperandSize16 · false)) (fun _ _ => rfl)
      (fun _ _ => (BitVec.add_left_inj 1).mp) (fun _ _ h => h) halike
  | repnz hf ho hr h ih => exact absurd (hrep _ _ _ (.here hf)) (by rw [ho]; decide)
  | repRet hf ho hn h ih => exact absurd (hrep _ _ _ (.here hf)) (by rw [ho]; decide)
  | rep hf ho hn hret hr h ih => exact absurd (hrep _ _ _ (.here hf)) (by rw [ho]; decide)

/-! ### The result -/

/-- Whatever is left in `ops_decoded`, but for the operand size, the execution of the
instruction at `eip` ends in the same way, with the same registers and memory. -/
def Independent (fuel : ℕ) (eip : Word) (m : Machine P) : Prop :=
  ∀ ops ops' : Operands, ops.isOperandSize16 = m.ops.isOperandSize16 →
    ops'.isOperandSize16 = m.ops.isOperandSize16 →
      Alike SameState (exec fuel eip { m with ops := ops }) (exec fuel eip { m with ops := ops' })

theorem Independent.cpu {fuel : ℕ} (h : Independent fuel eip m) (f f' : Slot → Operand) :
    (stateD m (exec fuel eip (m.withOperands f))).cpu = (stateD m (exec fuel eip (m.withOperands f'))).cpu := by
  have halike : Alike SameState (exec fuel eip (m.withOperands f)) (exec fuel eip (m.withOperands f')) :=
    h { m.ops with operand := f } { m.ops with operand := f' } rfl rfl
  revert halike
  cases exec fuel eip (m.withOperands f) <;> cases exec fuel eip (m.withOperands f') <;> intro halike
  all_goals first | rfl | exact halike.elim | exact halike.2.1

/-- The opcode that is left is overwritten first. -/
theorem exec_setOps {fuel : ℕ} {ops : Operands} (h : ops.isOperandSize16 = m.ops.isOperandSize16) :
    exec fuel eip { m with ops := ops } = exec fuel eip (m.withOperands ops.operand) := by
  cases fuel with
  | zero => rfl
  | succ fuel =>
    unfold exec instrFetch
    have hread : readMem ({ m with ops := ops } : Machine P).cpu eip 1 1 ({ m with ops := ops } : Machine P).bus =
      readMem (m.withOperands ops.operand).cpu eip 1 1 (m.withOperands ops.operand).bus := rfl
    rw [bind_run, bind_run, swaddrRead_run, swaddrRead_run, hread]
    cases readMem (m.withOperands ops.operand).cpu eip 1 1 (m.withOperands ops.operand).bus with
    | none => rfl
    | some r =>
      have hstate : (Machine.setBus { m with ops := ops } r.2).setOpcode r.1 =
          ((m.withOperands ops.operand).setBus r.2).setOpcode r.1 := by
        simp only [Machine.setOpcode, Machine.setBus, Machine.withOperands, h]
      dsimp only [andThen]
      rw [write_bind_run, write_bind_run, hstate]

/-- **Decoding leaves no hidden state**, where no stale instruction is executed; and,
but for repetitions, only there. -/
theorem leftovers_unused (fuel : ℕ) (eip : Word) (m : Machine P) :
    ((∀ o e m', Executes fuel eip m o e m' → ¬ Stale o e m') → Independent fuel eip m) ∧
    ((∀ o e m', Executes fuel eip m o e m' → o.toNat ∉ [0xf2, 0xf3]) → Independent fuel eip m →
      ∀ o e m', Executes fuel eip m o e m' → ¬ Stale o e m') := by
  constructor
  · intro hno ops ops' hops hops'
    rw [exec_setOps hops, exec_setOps hops']
    have halike (f : Slot → Operand) : Alike UpToOperands (exec fuel eip m) (exec fuel eip (m.withOperands f)) :=
      exec_alike (.intro m f trivial) hno
    refine (halike _).trans_left (halike _) fun s t u hst hsu => ?_
    obtain ⟨f, -⟩ := hst
    obtain ⟨f', -⟩ := hsu
    exact ⟨rfl, rfl⟩
  · intro hrep hind o e m' h hs
    obtain ⟨f, f', hne⟩ := h.depends hs hrep
    exact hne (hind { m.ops with operand := f } { m.ops with operand := f' } rfl rfl)

end Leftovers

/-- `add %ebx,%eax` is executed alone, and it is not stale. -/
theorem leftovers_unused_add : Independent 2 0 (flatMachine (fun _ => 1) [0x01, 0xd8]) := by
  have hfetch : value (instrFetch 0 1 (flatMachine (fun _ => 1) [0x01, 0xd8])) = some 0x01 := by decide +kernel
  refine (leftovers_unused 2 0 _).1 fun o e m' h hs => ?_
  have ho := h.eq_of_fetch (ok_stateD hfetch (flatMachine (fun _ => 1) [])) (by decide)
  rw [ho] at hs
  exact absurd hs.mem_staleOpcodes (by decide)

/-- Records with this size of the source, this segment and this value of the
destination. -/
def leftover (size sreg : ℕ) (dest : Word) (k : Slot) : Operand :=
  ⟨.reg, if k = .src then size else 4, 0, sreg, if k = .dest then dest else 0⟩

/-- `sbb $0x80,%eax`, `pop %eax`, `bt $0,%eax` and `scasb`. -/
theorem leftovers_used :
    ¬ Independent 2 0 (flatMachine (fun _ => 0) [0x1d, 0x80, 0, 0, 0]) ∧
    ¬ Independent 2 0 (flatMachine (fun _ => 0) [0x58]) ∧
    ¬ Independent 2 0 (flatMachine (fun _ => 0) [0x0f, 0xba, 0xe0, 0]) ∧
    ¬ Independent 2 0 (flatMachine (fun _ => 0) [0xae]) := by
  refine ⟨fun h => ?_, fun h => ?_, fun h => ?_, fun h => ?_⟩
  · exact absurd (congrArg CpuState.eflags (h.cpu (leftover 1 0 0) (leftover 4 0 0))) (by decide +kernel)
  · exact absurd (congrArg (CpuState.gpr · rESP) (h.cpu (leftover 4 0 0) (leftover 4 4 0))) (by decide +kernel)
  · exact absurd (congrArg CpuState.eflags (h.cpu (leftover 4 0 0) (leftover 4 0 1))) (by decide +kernel)
  · exact absurd (congrArg CpuState.eflags (h.cpu (leftover 4 0 0) (leftover 4 0 0x80))) (by decide +kernel)

end Nemu
