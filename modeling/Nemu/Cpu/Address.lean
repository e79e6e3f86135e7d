/-
# Operands in memory

A 32-bit addressing form has a base, a scaled index and a displacement, each of
them optional; `Encodes` says which ModR/M, SIB and displacement bytes name it.
`load_addr` computes the address of every form from every encoding of it.

The segment is another matter: `read_ModR_M` takes it from the `reg` field of the
ModR/M byte, not from the base, and `lgdt` and `lidt` use none.

Key definitions: `Addressing`, `Encodes`, `MemOperand`, `PicksSegment`.
Key theorems: `exists_encodes`, `loadAddr_encodes`, `decodeRmInternal_encodes`,
`load_addr_encodes`, `default_segment_iff`.
-/
import Nemu.Cpu.BitTest
import Nemu.Cpu.Simulate
import Mathlib.Data.List.GetD

namespace Nemu

open Bytes Cmd Instr WordMem

/-! ### The forms and their encodings -/

inductive Disp where
  | none
  | disp8 (b : Byte)
  | disp32 (v : Word)

namespace Disp

def value : Disp → Word
  | none => 0
  | disp8 b => b.signExtend 32
  | disp32 v => v

def bytes : Disp → List Byte
  | none => []
  | disp8 b => [b]
  | disp32 v => immediate v

/-- The `mod` that announces the displacement. -/
def mod : Disp → Fin 4
  | none => 0
  | disp8 _ => 1
  | disp32 _ => 2

end Disp

/-- An addressing form: a base, an index with the logarithm of its scale, a
displacement. -/
structure Addressing where
  base : Option (Fin 8)
  index : Option (Fin 8 × Fin 4)
  disp : Disp

/-- The effective address. -/
def Addressing.ea (a : Addressing) (gpr : Fin 8 → Word) : Word :=
  a.base.elim 0 gpr + a.index.elim 0 (fun i => gpr i.1 * BitVec.ofNat 32 (2 ^ i.2.val)) + a.disp.value

/-- The segment that the form means: `ss` if the base is `ebp` or `esp`, else `ds`. -/
def Addressing.segment (a : Addressing) : Fin 6 :=
  if a.base = some rEBP ∨ a.base = some rESP then 2 else 3

/-- What the fields `ss` and `index` of an SIB byte say: `esp` is no index. -/
inductive IndexIs : Option (Fin 8 × Fin 4) → Fin 4 → Fin 8 → Prop
  | none (ss : Fin 4) : IndexIs none ss rESP
  | some {i : Fin 8} (ss : Fin 4) (h : i ≠ rESP) : IndexIs (some (i, ss)) ss i

/-- The encodings of an addressing form, `r` in the field `reg`. -/
inductive Encodes (r : Fin 8) : Addressing → List Byte → Prop
  | base {b : Fin 8} {d : Disp} (hesp : b ≠ rESP) (hebp : b = rEBP → d ≠ .none) :
    Encodes r ⟨some b, none, d⟩ (fields d.mod r b :: d.bytes)
  | disp (v : Word) : Encodes r ⟨none, none, .disp32 v⟩ (fields 0 r rEBP :: immediate v)
  | sib {b : Fin 8} {i : Option (Fin 8 × Fin 4)} {ss : Fin 4} {f : Fin 8} {d : Disp}
    (hi : IndexIs i ss f) (hebp : b = rEBP → d ≠ .none) :
    Encodes r ⟨some b, i, d⟩ (fields d.mod r rESP :: fields ss f b :: d.bytes)
  | sibDisp {i : Option (Fin 8 × Fin 4)} {ss : Fin 4} {f : Fin 8} (hi : IndexIs i ss f) (v : Word) :
    Encodes r ⟨none, i, .disp32 v⟩ (fields 0 r rESP :: fields ss f rEBP :: immediate v)

/-! ### Fields -/

/-- Every byte has its fields. -/
theorem eq_fields (b : Byte) : b = fields (Fin.ofNat 4 (b.toNat / 64)) (Fin.ofNat 8 (b.toNat / 8))
    (Fin.ofNat 8 b.toNat) := by
  apply BitVec.eq_of_toNat_eq
  rw [fields, BitVec.toNat_ofNat, Fin.val_ofNat, Fin.val_ofNat, Fin.val_ofNat]
  omega

/-! ### Every encoding -/

/-- The displacement that a `mod` announces, of these bytes. -/
def Disp.read (x : Fin 4) (f : ℕ → Byte) : Disp :=
  if x = 0 then .none else if x = 1 then .disp8 (f 0) else .disp32 (word f 4)

theorem getD_immediate_word (f : ℕ → Byte) {i : ℕ} (hi : i < 4) :
    (immediate (word f 4)).getD i 0 = f i := by
  have hbyte := byte_word f 4 i hi
  rw [if_pos hi] at hbyte
  rw [← hbyte]
  interval_cases i <;> rfl

theorem Disp.read_spec {x : Fin 4} (h3 : x ≠ 3) (f : ℕ → Byte) :
    (Disp.read x f).mod = x ∧ ∀ i < (Disp.read x f).bytes.length, (Disp.read x f).bytes.getD i 0 = f i := by
  unfold Disp.read
  split_ifs with h0 h1
  · exact ⟨h0.symm, nofun⟩
  · refine ⟨h1.symm, fun i hi => ?_⟩
    rw [show i = 0 from Nat.lt_one_iff.mp hi]
    rfl
  · refine ⟨?_, fun i hi => getD_immediate_word f hi⟩
    change (2 : Fin 4) = x
    omega

theorem IndexIs.exists (ss : Fin 4) (f : Fin 8) : ∃ i, IndexIs i ss f := by
  by_cases h : f = rESP
  · subst h
    exact ⟨_, IndexIs.none ss⟩
  · exact ⟨_, IndexIs.some ss h⟩

/-- Bytes behind a prefix. -/
theorem getD_behind {head rest : List Byte} {f : ℕ → Byte} (hhead : ∀ i < head.length, head.getD i 0 = f i)
    (hrest : ∀ i < rest.length, rest.getD i 0 = f (head.length + i)) {i : ℕ}
    (hi : i < (head ++ rest).length) : (head ++ rest).getD i 0 = f i := by
  rcases Nat.lt_or_ge i head.length with h | h
  · rw [List.getD_append _ _ _ _ h, hhead i h]
  · rw [List.length_append] at hi
    rw [List.getD_append_right _ _ _ _ h, hrest _ (by omega), Nat.add_sub_cancel' h]

/-- `ebp` as a base needs a displacement. -/
theorem Disp.read_ne_none {x : Fin 4} {b : Fin 8} (h3 : x ≠ 3) (hb : ¬ (x = 0 ∧ b = rEBP)) (f : ℕ → Byte)
    (hebp : b = rEBP) : Disp.read x f ≠ .none := by
  intro hnone
  have hmod := (Disp.read_spec h3 f).1
  rw [hnone] at hmod
  exact hb ⟨hmod.symm, hebp⟩

/-- **Every ModR/M byte that names memory begins an encoding.** -/
theorem exists_encodes (f : ℕ → Byte) (h3 : bits67 ((f 0).setWidth 32) ≠ 3) :
    ∃ a code, Encodes (bits35 ((f 0).setWidth 32)) a code ∧ ∀ i < code.length, code.getD i 0 = f i := by
  have h0 := eq_fields (f 0)
  generalize Fin.ofNat 4 ((f 0).toNat / 64) = x at h0
  generalize Fin.ofNat 8 ((f 0).toNat / 8) = r at h0
  generalize Fin.ofNat 8 (f 0).toNat = z at h0
  rw [h0, bits67_fields] at h3
  rw [h0, bits35_fields]
  have hx : x ≠ 3 := fun h => h3 (congrArg Fin.val h)
  by_cases hz : z = rESP
  · -- an SIB byte
    have h1 := eq_fields (f 1)
    generalize Fin.ofNat 4 ((f 1).toNat / 64) = ss at h1
    generalize Fin.ofNat 8 ((f 1).toNat / 8) = g at h1
    generalize Fin.ofNat 8 (f 1).toNat = b at h1
    obtain ⟨i, hi⟩ := IndexIs.exists ss g
    have hhead : ∀ i < [fields x r rESP, fields ss g b].length,
        [fields x r rESP, fields ss g b].getD i 0 = f i := by
      rw [← hz, ← h0, ← h1]
      intro i hi
      have hi : i < 2 := hi
      interval_cases i <;> rfl
    by_cases hb : x = 0 ∧ b = rEBP
    · obtain ⟨rfl, rfl⟩ := hb
      exact ⟨_, _, .sibDisp hi (word (fun i => f (2 + i)) 4), fun i hi =>
        getD_behind hhead (fun i hi => getD_immediate_word (fun i => f (2 + i)) hi) hi⟩
    · obtain ⟨hmod, hdisp⟩ := Disp.read_spec hx fun i => f (2 + i)
      have henc := Encodes.sib (r := r) hi (Disp.read_ne_none hx hb fun i => f (2 + i))
      rw [hmod] at henc
      exact ⟨_, _, henc, fun i hi => getD_behind hhead hdisp hi⟩
  · have hhead : ∀ i < [fields x r z].length, [fields x r z].getD i 0 = f i := by
      rw [← h0]
      intro i hi
      rw [show i = 0 from Nat.lt_one_iff.mp hi]
      rfl
    by_cases hb : x = 0 ∧ z = rEBP
    · obtain ⟨rfl, rfl⟩ := hb
      exact ⟨_, _, .disp (word (fun i => f (1 + i)) 4), fun i hi =>
        getD_behind hhead (fun i hi => getD_immediate_word (fun i => f (1 + i)) hi) hi⟩
    · obtain ⟨hmod, hdisp⟩ := Disp.read_spec hx fun i => f (1 + i)
      have henc := Encodes.base (r := r) hz (Disp.read_ne_none hx hb fun i => f (1 + i))
      rw [hmod] at henc
      exact ⟨_, _, henc, fun i hi => getD_behind hhead hdisp hi⟩

/-! ### Where the bytes are -/

section Address

variable {P : Type} [Bus P] [Ram P] {m m₀ m' : Machine P} {E : Failure → Prop} [hE : Accesses P E]
  {code imm : List Byte} {eip mod v : Word} {k reg : Slot} {r : Fin 8} {a : Addressing}

namespace Same

theorem refl (m : Machine P) : Same m m := ⟨rfl, rfl, rfl⟩

theorem trans {m₁ m₂ m₃ : Machine P} (h₁ : Same m₁ m₂) (h₂ : Same m₂ m₃) : Same m₁ m₃ :=
  ⟨h₂.cpu.trans h₁.cpu, h₂.ops.trans h₁.ops, h₂.mem.trans h₁.mem⟩

/-- The machines stay the same when an operand is set. -/
theorem setOperand (h : Same m₀ m) (k : Slot) (o : Operand) :
    Same (m₀.setOperand k o) (m.setOperand k o) where
  cpu := h.cpu
  ops := by
    unfold Machine.setOperand
    rw [h.ops]
  mem := h.mem

theorem operand (h : Same m₀ m) (k : Slot) : m.operand k = m₀.operand k := by
  rw [Machine.operand, h.ops, Machine.operand]

theorem setType (h : Same m₀ m) (k : Slot) (t : OpType) : Same (m₀.setType k t) (m.setType k t) := by
  have := h.setOperand k { m₀.operand k with type := t }
  rwa [Machine.setType, Machine.setType, h.operand k]

theorem setLoc (h : Same m₀ m) (k : Slot) (v : Word) : Same (m₀.setLoc k v) (m.setLoc k v) := by
  have := h.setOperand k { m₀.operand k with loc := v }
  rwa [Machine.setLoc, Machine.setLoc, h.operand k]

theorem setVal (h : Same m₀ m) (k : Slot) (v : Word) : Same (m₀.setVal k v) (m.setVal k v) := by
  have := h.setOperand k { m₀.operand k with val := v }
  rwa [Machine.setVal, Machine.setVal, h.operand k]

theorem swaddrRead {i n : ℕ} (h : Same m₀ m) (hl : n = 1 ∨ n = 2 ∨ n = 4) (hi : i < 4)
    (addr : Word) : Returns (fun v m' => Same m₀ m' ∧
      v = WordMem.peek m₀.mem (m₀.cpu.linear addr (Fin.ofNat 6 i)) n) (swaddrRead addr n i m) E := by
  refine (swaddrRead_returns hl hi addr m).mono fun v m' hread => ?_
  obtain ⟨hcpu, hops, hmem, hv⟩ := hread
  refine ⟨⟨hcpu.trans h.cpu, hops.trans h.ops, hmem.trans h.mem⟩, ?_⟩
  rw [hv, h.mem, h.cpu]

end Same

/-! ### `load_addr` -/

/-- The SIB byte, if the ModR/M byte announces one. -/
def sibAt (s : CpuState × Mem) (eip mod : Word) : Word :=
  if bits02 mod = rESP then peek s.2 (s.1.linear (eip + 1) 1) 1 else 0

/-- The displacement that a form announces. -/
def dispAt (s : CpuState × Mem) (eip : Word) (form : AddrForm) : Word :=
  if form.dispSize = 0 then 0
  else
    let v := peek s.2 (s.1.linear (eip + BitVec.ofNat 32 form.dispOffset) 1) form.dispSize
    if form.dispSize = 1 then Width.sext .b v else v

/-- The address that `load_addr` computes, for the form that it reads. -/
def formAddr (s : CpuState × Mem) (eip : Word) (form : AddrForm) : Word :=
  dispAt s eip form + s.1.regOr0 form.base + s.1.regOr0 form.index <<< form.scale

/-- **What `load_addr` computes.** -/
theorem loadAddr_returns (h3 : bits67 mod ≠ 3) {form : AddrForm}
    (hform : form = addrForm mod (sibAt (m.cpu, m.mem) eip mod)) {addr : Word}
    (haddr : addr = formAddr (m.cpu, m.mem) eip form) :
    Returns (fun v m' => v = (BitVec.ofNat 32 (form.dispOffset + form.dispSize), addr) ∧
      Same ((m.setType k .mem).setLoc k addr) m') (loadAddr eip mod k m) E := by
  unfold loadAddr
  rw [if_neg h3]
  have hsib : Returns (fun v m' => Same m m' ∧ v = sibAt (m.cpu, m.mem) eip mod)
      ((if bits02 mod = rESP then instrFetch (eip + 1) 1 else pure 0 : Cmd (Machine P) Word) m) E := by
    unfold sibAt
    split_ifs
    · exact (Same.refl m).swaddrRead (.inl rfl) (by decide) _
    · exact ⟨Same.refl m, rfl⟩
  refine hsib.bind fun sib m₁ h₁ => ?_
  obtain ⟨hsame₁, rfl⟩ := h₁
  rw [← hform]
  have hdisp : Returns (fun v m' => Same m m' ∧
      (if form.dispSize = 1 then Width.sext .b v else v) = dispAt (m.cpu, m.mem) eip form)
      ((if form.dispSize = 0 then pure 0
        else instrFetch (eip + BitVec.ofNat 32 form.dispOffset) form.dispSize : Cmd (Machine P) Word) m₁)
      E := by
    unfold dispAt
    by_cases h0 : form.dispSize = 0
    · rw [if_pos h0, if_pos h0]
      exact ⟨hsame₁, if_neg (by omega)⟩
    · rw [if_neg h0, if_neg h0]
      have hsize : form.dispSize = 1 ∨ form.dispSize = 2 ∨ form.dispSize = 4 := by
        rcases hform ▸ addrForm_dispSize mod (sibAt (m.cpu, m.mem) eip mod) with h | h | h
        · exact absurd h h0
        · exact .inl h
        · exact .inr (.inr h)
      refine (hsame₁.swaddrRead hsize (by decide) _).mono fun v m' hread => ?_
      obtain ⟨hsame, rfl⟩ := hread
      exact ⟨hsame, rfl⟩
  refine hdisp.bind fun disp m₂ h₂ => ?_
  obtain ⟨hsame₂, hdisp⟩ := h₂
  have hsum : (if form.dispSize = 1 then Width.sext .b disp else disp) + m₂.cpu.regOr0 form.base +
      m₂.cpu.regOr0 form.index <<< form.scale = addr := by
    rw [hdisp, hsame₂.cpu, haddr, formAddr]
  rw [read_bind_run, read_bind_run, hsum]
  exact ⟨rfl, (hsame₂.setType k .mem).setLoc k addr⟩

/-! ### The form is the one encoded -/

/-- The ModR/M byte. -/
def modOf (code : List Byte) : Word := (code.getD 0 0).setWidth 32

/-- The form that the code reads off the first bytes is the one encoded, and its
displacement follows them. -/
structure Reads (form : AddrForm) (a : Addressing) (head code : List Byte) : Prop where
  code : code = head ++ a.disp.bytes
  base : form.base = a.base
  index : ∀ c : CpuState, c.regOr0 form.index <<< form.scale =
    a.index.elim 0 fun i => c.gpr i.1 * BitVec.ofNat 32 (2 ^ i.2.val)
  offset : form.dispOffset = head.length
  size : form.dispSize = a.disp.bytes.length

theorem shl_eq_mul (v : Word) (n : ℕ) : v <<< n = v * BitVec.ofNat 32 (2 ^ n) := by
  have hpow : BitVec.twoPow 32 n = BitVec.ofNat 32 (2 ^ n) :=
    BitVec.eq_of_toNat_eq (by rw [BitVec.toNat_twoPow, BitVec.toNat_ofNat])
  rw [BitVec.shiftLeft_eq_mul_twoPow, hpow]

theorem index_shl {i : Option (Fin 8 × Fin 4)} {ss : Fin 4} {f : Fin 8} (hi : IndexIs i ss f)
    (c : CpuState) : c.regOr0 (if f ≠ rESP then some f else none) <<< ss.val =
      i.elim 0 fun i => c.gpr i.1 * BitVec.ofNat 32 (2 ^ i.2.val) := by
  cases hi with
  | none => exact BitVec.zero_shiftLeft _
  | some _ h =>
    rw [if_pos h]
    exact shl_eq_mul _ _

theorem mod_eq_zero_iff (d : Disp) : d.mod.val = 0 ↔ d = .none := by
  cases d <;> simp [Disp.mod]

/-- The size of the displacement that `mod` and the base announce. -/
theorem dispSize_mod (d : Disp) {b : Fin 8} (hebp : b = rEBP → d ≠ .none) :
    (if d.mod.val = 0 then (if b = rEBP then 4 else 0) else if d.mod.val = 1 then 1 else 4) =
      d.bytes.length := by
  cases d with
  | none =>
    have hb : b ≠ rEBP := fun h => hebp h rfl
    simp [Disp.mod, Disp.bytes, hb]
  | disp8 => rfl
  | disp32 => rfl

/-- The base without one of the displacements that `ebp` needs. -/
theorem base_mod (d : Disp) {b : Fin 8} (hebp : b = rEBP → d ≠ .none) :
    (if d.mod.val = 0 ∧ b = rEBP then none else some b) = some b := by
  rw [if_neg]
  rintro ⟨h0, hb⟩
  exact hebp hb ((mod_eq_zero_iff d).mp h0)

omit [Bus P] [Ram P] in
theorem sibAt_coded {s : CpuState × Mem} {b : Byte} {rest : List Byte} (hc : Coded s eip (b :: rest))
    (hlen : 0 < rest.length) (h : bits02 mod = rESP) : sibAt s eip mod = (rest.getD 0 0).setWidth 32 := by
  rw [sibAt, if_pos h]
  have hpeek := hc.peek (i := 1) (n := 1) (by rw [List.length_cons]; omega)
  refine hpeek.trans ?_
  simp [word]

omit [Bus P] [Ram P] in
theorem addrForm_base (x : Fin 4) (y : Fin 8) {z : Fin 8} (hz : z ≠ rESP) (sib : Word) :
    addrForm ((fields x y z).setWidth 32) sib =
      { base := if x.val = 0 ∧ z = rEBP then none else some z
        index := none
        scale := 0
        dispOffset := 1
        dispSize := if x.val = 0 then (if z = rEBP then 4 else 0) else if x.val = 1 then 1 else 4 } := by
  simp [addrForm, hz]

omit [Bus P] [Ram P] in
theorem addrForm_sib (x : Fin 4) (y : Fin 8) (ss : Fin 4) (f b : Fin 8) :
    addrForm ((fields x y rESP).setWidth 32) ((fields ss f b).setWidth 32) =
      { base := if x.val = 0 ∧ b = rEBP then none else some b
        index := if f ≠ rESP then some f else none
        scale := ss.val
        dispOffset := 2
        dispSize := if x.val = 0 then (if b = rEBP then 4 else 0) else if x.val = 1 then 1 else 4 } := by
  simp [addrForm]

/-- **The form that is read is the one encoded.** -/
theorem Encodes.reads (h : Encodes r a code) {s : CpuState × Mem} (hc : Coded s eip code) :
    bits67 (modOf code) ≠ 3 ∧ bits35 (modOf code) = r ∧
      ∃ head, Reads (addrForm (modOf code) (sibAt s eip (modOf code))) a head code := by
  have hne : ∀ d : Disp, d.mod.val ≠ 3 := fun d => by cases d <;> simp [Disp.mod]
  cases h with
  | @base b d hesp hebp =>
    rw [show modOf (fields d.mod r b :: d.bytes) = (fields d.mod r b).setWidth 32 from rfl,
      addrForm_base _ _ hesp, base_mod d hebp, dispSize_mod d hebp]
    exact ⟨(bits67_fields ..).symm ▸ hne d, bits35_fields .., [_],
      ⟨rfl, rfl, fun _ => BitVec.zero_shiftLeft _, rfl, rfl⟩⟩
  | disp v =>
    rw [show modOf (fields 0 r rEBP :: immediate v) = (fields 0 r rEBP).setWidth 32 from rfl,
      addrForm_base _ _ (by decide)]
    exact ⟨(bits67_fields ..).symm ▸ (by decide), bits35_fields .., [_],
      ⟨rfl, rfl, fun _ => BitVec.zero_shiftLeft _, rfl, rfl⟩⟩
  | @sib b i ss f d hi hebp =>
    rw [show modOf (fields d.mod r rESP :: fields ss f b :: d.bytes) = (fields d.mod r rESP).setWidth 32
      from rfl, sibAt_coded hc (Nat.succ_pos _) (bits02_fields ..),
      show (fields ss f b :: d.bytes).getD 0 0 = fields ss f b from rfl, addrForm_sib, base_mod d hebp,
      dispSize_mod d hebp]
    exact ⟨(bits67_fields ..).symm ▸ hne d, bits35_fields .., [_, _],
      ⟨rfl, rfl, index_shl hi, rfl, rfl⟩⟩
  | @sibDisp i ss f hi v =>
    rw [show modOf (fields 0 r rESP :: fields ss f rEBP :: immediate v) = (fields 0 r rESP).setWidth 32
      from rfl, sibAt_coded hc (Nat.succ_pos _) (bits02_fields ..),
      show (fields ss f rEBP :: immediate v).getD 0 0 = fields ss f rEBP from rfl, addrForm_sib]
    exact ⟨(bits67_fields ..).symm ▸ (by decide), bits35_fields .., [_, _],
      ⟨rfl, rfl, index_shl hi, rfl, rfl⟩⟩

namespace Reads

variable {form : AddrForm} {head : List Byte} {s : CpuState × Mem}

omit [Bus P] [Ram P] in
theorem dispAt_eq (h : Reads form a head code) (hc : Coded s eip code) :
    dispAt s eip form = a.disp.value := by
  have hcode := h.code
  have hsize := h.size
  have hoff := h.offset
  have hpeek : peek s.2 (s.1.linear (eip + BitVec.ofNat 32 form.dispOffset) 1) form.dispSize =
      word (fun j => a.disp.bytes.getD j 0) a.disp.bytes.length := by
    rw [hoff, hsize, hc.peek (by rw [hcode, List.length_append])]
    refine word_congr fun j _ => ?_
    rw [hcode, List.getD_append_right _ _ _ _ (Nat.le_add_right _ _), Nat.add_sub_cancel_left]
  unfold dispAt
  dsimp only
  rw [hpeek, hsize]
  cases a.disp with
  | none => rfl
  | disp8 b =>
    change Width.sext .b (word (fun j => [b].getD j 0) 1) = b.signExtend 32
    rw [show word (fun j => [b].getD j 0) 1 = b.setWidth 32 by simp [word], sext_byte]
  | disp32 v =>
    change word (fun j => (immediate v).getD j 0) 4 = v
    refine Eq.trans (word_congr fun i hi => ?_) (word_byte v)
    interval_cases i <;> rfl

omit [Bus P] [Ram P] in
theorem formAddr_eq (h : Reads form a head code) (hc : Coded s eip code) :
    formAddr s eip form = a.ea s.1.gpr := by
  have hbase : s.1.regOr0 form.base = a.base.elim 0 s.1.gpr := by
    rw [h.base]
    cases a.base <;> rfl
  calc formAddr s eip form
      = a.disp.value + a.base.elim 0 s.1.gpr +
          a.index.elim 0 (fun i => s.1.gpr i.1 * BitVec.ofNat 32 (2 ^ i.2.val)) := by
        rw [formAddr, h.dispAt_eq hc, hbase, h.index]
    _ = a.ea s.1.gpr := by
        rw [Addressing.ea, BitVec.add_comm, BitVec.add_comm a.disp.value, ← BitVec.add_assoc,
          BitVec.add_comm _ (a.base.elim 0 s.1.gpr)]

omit [Bus P] [Ram P] in
theorem length_eq (h : Reads form a head code) : form.dispOffset + form.dispSize = code.length := by
  rw [h.offset, h.size, h.code, List.length_append]

end Reads

/-- **`load_addr` of an encoded form**: its address, and the number of its bytes. -/
theorem loadAddr_encodes (h : Encodes r a code) (hc : Coded (m.cpu, m.mem) eip code) (k : Slot) :
    Returns (fun v m' => v = (BitVec.ofNat 32 code.length, a.ea m.cpu.gpr) ∧
      Same ((m.setType k .mem).setLoc k (a.ea m.cpu.gpr)) m') (loadAddr eip (modOf code) k m) E := by
  obtain ⟨h3, -, head, hreads⟩ := h.reads hc
  have hrun := loadAddr_returns (E := E) (k := k) h3 rfl (hreads.formAddr_eq hc).symm
  rwa [hreads.length_eq] at hrun

/-! ### The decoders -/

/-- The segment that `read_ModR_M` takes, from the field `reg`. -/
def sregOf (r : Fin 8) : ℕ := if r = 5 ∨ r = 4 then 2 else 3

/-- The operand `k` is in memory at `addr` in segment `sreg`, and was read. -/
structure MemOperand (d : Width) (k : Slot) (addr : Word) (sreg : ℕ) (m m' : Machine P) : Prop where
  cpu : m'.cpu = m.cpu
  mem : m'.mem = m.mem
  type : m'.type k = .mem
  loc : m'.loc k = addr
  segment : (m'.operand k).sreg = sreg
  size : (m'.operand k).size = d.bytes
  val : m'.val k = peek m.mem (m.cpu.linear addr (Fin.ofNat 6 sreg)) d.bytes

theorem sregOf_lt (r : Fin 8) : sregOf r < 4 := by
  unfold sregOf
  split_ifs <;> decide

/-- Another operand is set. -/
theorem MemOperand.setOperand {d : Width} {addr : Word} {sreg : ℕ} (h : MemOperand d k addr sreg m m₀)
    (hne : k ≠ reg) (o : Operand) (hs : Same (m₀.setOperand reg o) m') :
    MemOperand d k addr sreg m m' := by
  have hop : m'.operand k = m₀.operand k := by
    rw [hs.operand, Machine.operand_setOperand, if_neg hne]
  refine ⟨hs.cpu.trans h.cpu, hs.mem.trans h.mem, ?_, ?_, ?_, ?_, ?_⟩
  · rw [← h.type, Machine.type, Machine.type, hop]
  · rw [← h.loc, Machine.loc, Machine.loc, hop]
  · rw [← h.segment, hop]
  · rw [← h.size, hop]
  · rw [← h.val, Machine.val, Machine.val, hop]

/-- **The operand that an encoded form names**, as it is decoded. -/
theorem decodeRmInternal_encodes {d : Width} (hne : k ≠ reg) (h : Encodes r a code)
    (hc : Coded (m.cpu, m.mem) eip code) :
    Returns (fun len m' => len = BitVec.ofNat 32 code.length ∧
      MemOperand d k (a.ea m.cpu.gpr) (sregOf r) m m') (decodeRmInternal d eip k reg m) E := by
  obtain ⟨h3, hr, -⟩ := h.reads hc
  unfold decodeRmInternal
  rw [write_bind_run]
  have hmodrm : Returns (fun v m' => v = (BitVec.ofNat 32 code.length, r) ∧
      MemOperand d k (a.ea m.cpu.gpr) (sregOf r) m m') (readModRM d eip k reg (m.setSize k d.bytes)) E := by
    unfold readModRM
    have hfetch := (Same.refl (m.setSize k d.bytes)).swaddrRead (E := E) (n := 1) (i := 1) (.inl rfl)
      (by decide) eip
    refine Returns.bind hfetch fun v m₁ h₁ => ?_
    obtain ⟨hsame₁, hv⟩ := h₁
    have hmod : v = modOf code := by
      have hpos : 0 < code.length := by cases h <;> exact Nat.succ_pos _
      have hbyte := hc 0 hpos
      rw [BitVec.add_zero] at hbyte
      rw [hv, peek_one, modOf, ← hbyte]
      rfl
    rw [hmod, write_bind_run, write_bind_run, write_bind_run, if_neg h3, hr]
    set s := (((m₁.setType reg .reg).setLoc reg (regNo r)).setOpSreg k (sregOf r)) with hs
    have hsc : s.cpu = m.cpu := hsame₁.cpu
    have hsm : s.mem = m.mem := hsame₁.mem
    have hload := loadAddr_encodes (E := E) (m := s) h (by rw [hsc, hsm]; exact hc) k
    refine hload.bind fun v m₂ h₂ => ?_
    obtain ⟨rfl, hsame₂⟩ := h₂
    rw [hsc] at hsame₂ ⊢
    refine (hsame₂.swaddrRead d.len_ok (sregOf_lt r) (a.ea m.cpu.gpr)).bind fun v m₃ h₃ => ?_
    obtain ⟨hsame₃, hv⟩ := h₃
    rw [write_bind_run]
    have hsame := hsame₃.setVal k v
    have hop : (m₃.setVal k v).operand k =
        { type := .mem, size := d.bytes, loc := a.ea m.cpu.gpr, sreg := sregOf r, val := v } := by
      rw [hsame.operand]
      simp [hs, Machine.setVal, Machine.setLoc, Machine.setType, Machine.setOpSreg, hne,
        hsame₁.operand, Machine.setSize]
    refine ⟨rfl, hsame.cpu.trans hsc, hsame.mem.trans hsm, ?_, ?_, ?_, ?_, ?_⟩
    · rw [Machine.type, hop]
    · rw [Machine.loc, hop]
    · rw [hop]
    · rw [hop]
    · have hcpu : ((s.setType k .mem).setLoc k (a.ea m.cpu.gpr)).cpu = m.cpu := hsc
      have hmem : ((s.setType k .mem).setLoc k (a.ea m.cpu.gpr)).mem = m.mem := hsm
      rw [hcpu, hmem] at hv
      rw [Machine.val, hop, hv]
  refine hmodrm.bind fun v m₁ h₁ => ?_
  obtain ⟨rfl, hmem⟩ := h₁
  rw [read_bind_run, write_bind_run]
  exact ⟨rfl, hmem.setOperand hne _ (Same.refl _)⟩

/-- The bytes of an immediate, as a word. -/
def immOf (imm : List Byte) : Word := word (fun j => imm.getD j 0) imm.length

/-- The operand `src` is the immediate `v`, and nothing else has changed. -/
def ImmOperand (v : Word) (m m' : Machine P) : Prop :=
  Same (((m.setType .src .imm).setLoc .src v).setVal .src v) m'

theorem ImmOperand.val (h : ImmOperand v m m') : m'.val .src = v := by
  rw [Machine.val, h.operand]
  simp [Machine.setVal]

theorem MemOperand.setImm {d : Width} {addr : Word} {sreg : ℕ} (h : MemOperand d k addr sreg m m₀)
    (hne : k ≠ .src) (hs : ImmOperand v m₀ m') : MemOperand d k addr sreg m m' := by
  have h₁ := h.setOperand hne { m₀.operand .src with type := .imm } (Same.refl _)
  have h₂ := h₁.setOperand hne { (m₀.setType .src .imm).operand .src with loc := v } (Same.refl _)
  exact h₂.setOperand hne _ hs

theorem decodeI_coded {d : Width} (hc : Coded (m.cpu, m.mem) eip imm) (hlen : imm.length = d.bytes) :
    Returns (fun len m' => len = BitVec.ofNat 32 imm.length ∧ ImmOperand (immOf imm) m m')
      (decodeI d eip m) E := by
  unfold decodeI
  rw [write_bind_run]
  have hfetch := (Same.refl (m.setType .src .imm)).swaddrRead (E := E) (i := 1) d.len_ok
    (by decide) eip
  refine Returns.bind hfetch fun v m₁ h₁ => ?_
  obtain ⟨hsame, hv⟩ := h₁
  rw [← hlen] at hv
  have himm : v = immOf imm := hv.trans hc.peek_self
  rw [write_bind_run, write_bind_run, himm]
  refine ⟨by rw [hlen]; rfl, (hsame.setLoc .src _).setVal .src _⟩

theorem decodeSi_coded {b : Byte} (hc : Coded (m.cpu, m.mem) eip [b]) :
    Returns (fun len m' => len = 1 ∧ ImmOperand (b.signExtend 32) m m') (decodeSi .b eip m) E := by
  unfold decodeSi
  rw [write_bind_run]
  have hfetch := (Same.refl (m.setType .src .imm)).swaddrRead (E := E) (i := 1) (n := 1) (.inl rfl)
    (by decide) eip
  refine Returns.bind hfetch fun v m₁ h₁ => ?_
  obtain ⟨hsame, hv⟩ := h₁
  have himm : Width.sext .b v = b.signExtend 32 := by
    rw [← sext_byte b, hv, peek_one, ← hc.head]
    rfl
  rw [write_bind_run, write_bind_run, himm]
  exact ⟨rfl, (hsame.setLoc .src _).setVal .src _⟩

/-- A decoder of an immediate, behind an operand in memory. -/
theorem rm_then_encodes {d : Width} {dec : Helper P} (h : Encodes r a code)
    (hc : Coded (m.cpu, m.mem) eip (code ++ imm)) (hkreg : k ≠ reg) (hksrc : k ≠ .src)
    (hdec : ∀ m₁ : Machine P, Coded (m₁.cpu, m₁.mem) (eip + BitVec.ofNat 32 code.length) imm →
      Returns (fun len m' => len = BitVec.ofNat 32 imm.length ∧ ImmOperand v m₁ m')
        (dec (eip + BitVec.ofNat 32 code.length) m₁) E) :
    Returns (fun len m' => len = BitVec.ofNat 32 (code ++ imm).length ∧ m'.type k = .mem ∧
      m'.loc k = a.ea m.cpu.gpr ∧ m'.val .src = v)
      ((do
        let len ← decodeRmInternal d eip k reg
        let len' ← dec (eip + len)
        return len + len' : Cmd (Machine P) Word) m) E := by
  refine (decodeRmInternal_encodes hkreg h hc.left).bind fun len m₁ h₁ => ?_
  obtain ⟨rfl, hmem⟩ := h₁
  refine (hdec m₁ (by rw [hmem.cpu, hmem.mem]; exact hc.right)).bind fun len' m₂ h₂ => ?_
  obtain ⟨rfl, himm⟩ := h₂
  have hmem' := hmem.setImm hksrc himm
  exact ⟨by rw [List.length_append, BitVec.ofNat_add], hmem'.type, hmem'.loc, himm.val⟩

/-- **Address decoding.** Of every encoding of every addressing form `load_addr`
computes the effective address and the length, so that the decoders fetch an
immediate from behind it. -/
theorem load_addr_encodes (h : Encodes r a code) (m : Machine P) (hc : Coded (m.cpu, m.mem) eip code) :
    (∀ k : Slot, Returns (fun v m' => v = (BitVec.ofNat 32 code.length, a.ea m.cpu.gpr) ∧
      m'.type k = .mem ∧ m'.loc k = a.ea m.cpu.gpr) (loadAddr eip (modOf code) k m) E) ∧
    (∀ (d : Width) (imm : List Byte), imm.length = d.bytes → Coded (m.cpu, m.mem) eip (code ++ imm) →
      Returns (fun len m' => len = BitVec.ofNat 32 (code ++ imm).length ∧ m'.type .dest = .mem ∧
        m'.loc .dest = a.ea m.cpu.gpr ∧ m'.val .src = immOf imm) (decodeI2rm d eip m) E ∧
      Returns (fun len m' => len = BitVec.ofNat 32 (code ++ imm).length ∧ m'.type .src2 = .mem ∧
        m'.loc .src2 = a.ea m.cpu.gpr ∧ m'.val .src = immOf imm) (decodeIRm2r d eip m) E) ∧
    ∀ (d : Width) (b : Byte), Coded (m.cpu, m.mem) eip (code ++ [b]) →
      Returns (fun len m' => len = BitVec.ofNat 32 (code ++ [b]).length ∧ m'.type .dest = .mem ∧
        m'.loc .dest = a.ea m.cpu.gpr ∧ m'.val .src = b.signExtend 32) (decodeSi2rm d eip m) E ∧
      Returns (fun len m' => len = BitVec.ofNat 32 (code ++ [b]).length ∧ m'.type .src2 = .mem ∧
        m'.loc .src2 = a.ea m.cpu.gpr ∧ m'.val .src = b.signExtend 32) (decodeSiRm2r d eip m) E := by
  refine ⟨fun k => ?_, fun d imm hlen hci => ⟨?_, ?_⟩, fun d b hci => ⟨?_, ?_⟩⟩
  · refine (loadAddr_encodes h hc k).mono fun v m' hrun => ?_
    obtain ⟨rfl, hsame⟩ := hrun
    refine ⟨rfl, ?_, ?_⟩
    · rw [Machine.type, hsame.operand]
      simp [Machine.setType, Machine.setLoc]
    · rw [Machine.loc, hsame.operand]
      simp [Machine.setLoc]
  · exact rm_then_encodes h hci (by decide) (by decide) fun m₁ hc₁ => decodeI_coded hc₁ hlen
  · exact rm_then_encodes h hci (by decide) (by decide) fun m₁ hc₁ => decodeI_coded hc₁ hlen
  · exact rm_then_encodes h hci (by decide) (by decide) fun m₁ hc₁ => decodeSi_coded hc₁
  · exact rm_then_encodes h hci (by decide) (by decide) fun m₁ hc₁ => decodeSi_coded hc₁

/-- `movb $7, -8(%esp,%eax,4)`, with 0x100 in `esp` and 3 in `eax`: the operand
is at 0x104, and the immediate behind the displacement. -/
theorem load_addr_encodes_sib :
    Encodes 0 ⟨some rESP, some (rEAX, 2), .disp8 0xf8⟩ [0x44, 0x84, 0xf8] ∧
    ∃ len m', decodeI2rm .b 1 (flatMachine (fun i => if i = rESP then 0x100 else if i = rEAX then 3 else 0)
      [0xc6, 0x44, 0x84, 0xf8, 7]) = .ok len m' ∧ len = 4 ∧ m'.loc .dest = 0x104 ∧ m'.val .src = 7 := by
  have henc : Encodes 0 ⟨some rESP, some (rEAX, 2), .disp8 0xf8⟩ [0x44, 0x84, 0xf8] :=
    .sib (.some (i := rEAX) 2 (by decide)) nofun
  generalize hm : flatMachine (fun i => if i = rESP then 0x100 else if i = rEAX then 3 else 0)
    [0xc6, 0x44, 0x84, 0xf8, 7] = m
  have hc : Coded (m.cpu, m.mem) 1 ([0x44, 0x84, 0xf8] ++ [7]) := by subst hm; decide +kernel
  obtain ⟨len, m', hrun, hlen, -, hloc, himm⟩ := ((load_addr_encodes (E := fun _ => False) henc m
    hc.left).2.1 .b [7] rfl hc).1.exists_ok
  refine ⟨henc, len, m', hrun, hlen, ?_, himm.trans (by decide)⟩
  rw [hloc]
  subst hm
  decide

/-! ### The segment -/

/-- The field `reg` picks the segment that the base means. -/
def PicksSegment (r : Fin 8) (a : Addressing) : Prop :=
  (r = 5 ∨ r = 4) ↔ (a.base = some rEBP ∨ a.base = some rESP)

instance (r : Fin 8) (a : Addressing) : Decidable (PicksSegment r a) :=
  inferInstanceAs (Decidable (_ ↔ _))

/-- `ss` and `ds` begin at the same address, or there are no segments. -/
def CpuState.OneBase (c : CpuState) : Prop :=
  c.protectEnable = true → (c.sreg 2).cache.base = (c.sreg 3).cache.base

omit [Bus P] [Ram P] in
theorem sregOf_eq_iff : Fin.ofNat 6 (sregOf r) = a.segment ↔ PicksSegment r a := by
  unfold sregOf Addressing.segment PicksSegment
  by_cases hr : r = 5 ∨ r = 4
  · by_cases hb : a.base = some rEBP ∨ a.base = some rESP
    · simp [hr, hb]
    · simp only [hr, hb, ↓reduceIte, iff_false, not_true_eq_false]
      decide
  · by_cases hb : a.base = some rEBP ∨ a.base = some rESP
    · simp only [hr, hb, ↓reduceIte, iff_true]
      decide
    · simp [hr, hb]

/-- Two different ones of `ss` and `ds`. -/
theorem CpuState.linear_eq_iff (c : CpuState) (addr : Word) {i j : Fin 6} (hi : i = 2 ∨ i = 3)
    (hj : j = 2 ∨ j = 3) : c.linear addr i = c.linear addr j ↔ i = j ∨ c.OneBase := by
  have hiff : c.linear addr 2 = c.linear addr 3 ↔ c.OneBase := by
    unfold CpuState.linear CpuState.OneBase
    by_cases hpe : c.protectEnable
    · simp [hpe]
    · simp [hpe]
  rcases hi with rfl | rfl <;> rcases hj with rfl | rfl
  · simp
  · simp [hiff]
  · rw [eq_comm, hiff]
    simp
  · simp

omit [Bus P] [Ram P] in
theorem sregOf_cases : Fin.ofNat 6 (sregOf r) = 2 ∨ Fin.ofNat 6 (sregOf r) = 3 := by
  unfold sregOf
  split_ifs
  · exact .inl rfl
  · exact .inr rfl

omit [Bus P] [Ram P] in
theorem Addressing.segment_cases (a : Addressing) : a.segment = 2 ∨ a.segment = 3 := by
  unfold Addressing.segment
  split_ifs
  · exact .inl rfl
  · exact .inr rfl

/-- A write to an operand in memory. -/
theorem MemOperand.write {d : Width} {addr : Word} (h : MemOperand d k addr (sregOf r) m m') (v : Word) :
    Returns (fun _ m'' => m''.mem = poke m.mem (m'.place k) d.bytes (d.trunc v)) (writeOperand d k v m') E := by
  unfold writeOperand
  rw [read_bind_run, read_bind_run, h.type, if_neg (by decide), if_pos rfl, read_bind_run, read_bind_run,
    h.size, h.segment]
  refine (swaddrWrite_returns d.len_ok (sregOf_lt r) _ _ m').mono fun _ m'' hwrite => ?_
  rw [hwrite.2.2, h.mem, Machine.place, h.segment]

/-- `lgdt` and `lidt` read their operand without a segment. -/
theorem loadDescReg_encodes (h : Encodes r a code) (hc : Coded (m.cpu, m.mem) (eip + 1) code)
    (set : DescReg → Machine P → Machine P) :
    Returns (fun _ m' => ∃ m₁ : Machine P, m₁.cpu = m.cpu ∧
      m' = set ⟨(peek m.mem (a.ea m.cpu.gpr) 2).setWidth 16, peek m.mem (a.ea m.cpu.gpr + 2) 4⟩ m₁)
      (loadDescReg .l set eip m) E := by
  unfold loadDescReg
  refine Returns.bind (decodeRmInternal_encodes (d := .l) (by decide : Slot.src ≠ .dest) h hc)
    fun len m₁ h₁ => ?_
  obtain ⟨-, hmem⟩ := h₁
  rw [read_bind_run, hmem.loc]
  refine (lnaddrRead_returns (.inr (.inl rfl)) _ m₁).bind fun limit m₂ h₂ => ?_
  obtain ⟨hcpu₂, -, hmem₂, rfl⟩ := h₂
  refine (lnaddrRead_returns (.inr (.inr rfl)) _ m₂).bind fun base m₃ h₃ => ?_
  obtain ⟨hcpu₃, -, -, rfl⟩ := h₃
  rw [write_bind_run, hmem₂, hmem.mem]
  exact ⟨m₃, hcpu₃.trans (hcpu₂.trans hmem.cpu), rfl⟩

/-- **Default segment.** -/
theorem default_segment_iff {d : Width} (hne : k ≠ reg) (h : Encodes r a code) (m : Machine P) :
    (Coded (m.cpu, m.mem) eip code → Returns (fun _ m' =>
      (Fin.ofNat 6 (m'.operand k).sreg = a.segment ↔ PicksSegment r a) ∧
      (m'.place k = m.cpu.linear (a.ea m.cpu.gpr) a.segment ↔ PicksSegment r a ∨ m.cpu.OneBase) ∧
      m'.val k = peek m.mem (m'.place k) d.bytes ∧
      ∀ v : Word, Returns (fun _ m'' => m''.mem = poke m.mem (m'.place k) d.bytes (d.trunc v))
        (writeOperand d k v m') E) (decodeRmInternal d eip k reg m) E) ∧
    (Coded (m.cpu, m.mem) (eip + 1) code →
      Returns (fun _ m' => m'.cpu.gdtr = ⟨(peek m.mem (a.ea m.cpu.gpr) 2).setWidth 16,
        peek m.mem (a.ea m.cpu.gpr + 2) 4⟩) (lgdt .l eip m) E ∧
      Returns (fun _ m' => m'.cpu.idtr = ⟨(peek m.mem (a.ea m.cpu.gpr) 2).setWidth 16,
        peek m.mem (a.ea m.cpu.gpr + 2) 4⟩) (lidt .l eip m) E ∧
      (a.ea m.cpu.gpr = m.cpu.linear (a.ea m.cpu.gpr) a.segment ↔
        m.cpu.protectEnable = true → (m.cpu.sreg a.segment).cache.base = 0)) := by
  refine ⟨fun hc => ?_, fun hc => ⟨?_, ?_, ?_⟩⟩
  · refine (decodeRmInternal_encodes hne h hc).mono fun _ m' h' => ?_
    obtain ⟨-, hmem⟩ := h'
    have hplace : m'.place k = m.cpu.linear (a.ea m.cpu.gpr) (Fin.ofNat 6 (sregOf r)) := by
      rw [Machine.place, hmem.cpu, hmem.loc, hmem.segment]
    refine ⟨by rw [hmem.segment, sregOf_eq_iff], ?_, by rw [hplace]; exact hmem.val, hmem.write⟩
    rw [hplace, m.cpu.linear_eq_iff _ sregOf_cases a.segment_cases, sregOf_eq_iff]
  · refine (loadDescReg_encodes h hc _).mono fun _ m' h' => ?_
    obtain ⟨m₁, -, rfl⟩ := h'
    rfl
  · refine (loadDescReg_encodes h hc _).mono fun _ m' h' => ?_
    obtain ⟨m₁, -, rfl⟩ := h'
    rfl
  · unfold CpuState.linear
    by_cases hpe : m.cpu.protectEnable
    · simp [hpe]
    · simp [hpe]

end Address

/-- A machine with segments, `ss` from 0x1000 on, and 0x20 in `ebp`. -/
def segMachine (code : List Byte) : Machine FlatBus :=
  let m := flatMachine (fun i => if i = rEBP then 0x20 else 0) code
  { m with cpu := { m.cpu with
      cr0 := 1
      sreg := fun i => ⟨0, ⟨if i = 2 then 0x1000 else 0, 0, 0, 0, 0⟩⟩ } }

/-- `movl 4(%ebp), %esp` takes its operand from `ss`. -/
theorem default_segment_esp : ∃ len m',
    decodeRmInternal .l 1 .src .dest (segMachine [0x8b, 0x65, 4]) = .ok len m' ∧
    m'.place .src = 0x1024 := by
  generalize hm : segMachine [0x8b, 0x65, 4] = m
  have hc : Coded (m.cpu, m.mem) 1 [0x65, 4] := by subst hm; decide +kernel
  have henc : Encodes 4 ⟨some rEBP, none, .disp8 4⟩ [0x65, 4] := .base (by decide) nofun
  have hright : PicksSegment 4 ⟨some rEBP, none, .disp8 4⟩ := by decide
  obtain ⟨len, m', hrun, -, hplace, -⟩ := (((default_segment_iff (E := fun _ => False) (d := .l)
    (by decide : Slot.src ≠ .dest) henc m).1 hc)).exists_ok
  refine ⟨len, m', hrun, (hplace.mpr (.inl hright)).trans ?_⟩
  subst hm
  decide

/-- `movl 4(%ebp), %eax` takes it from `ds`. -/
theorem default_segment_wrong : ∃ len m',
    decodeRmInternal .l 1 .src .dest (segMachine [0x8b, 0x45, 4]) = .ok len m' ∧
    Encodes rEAX ⟨some rEBP, none, .disp8 4⟩ [0x45, 4] ∧
    Addressing.segment ⟨some rEBP, none, .disp8 4⟩ = 2 ∧ (m'.operand .src).sreg = 3 ∧
    m'.place .src = 0x24 ∧ (segMachine []).cpu.linear 0x24 2 = 0x1024 := by
  have hrun := ok_stateD (show value (decodeRmInternal .l 1 .src .dest (segMachine [0x8b, 0x45, 4])) =
    some 2 by decide +kernel) (segMachine [])
  exact ⟨_, _, hrun, .base (by decide) nofun, by decide, by decide +kernel, by decide +kernel,
    by decide +kernel⟩

end Nemu
