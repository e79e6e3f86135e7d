/-
# Segment caches and their descriptors

The base and the limit of a segment register are kept in its cache, which is
filled from the GDT when the register is loaded. `mov` to a segment register,
`ljmp` and the entry of an interrupt fill it; `iret` writes the selector of `cs`
and leaves the cache as it was.

The GDT is what the processor reads at its address, in the entries that its limit
covers (`Gdt.covered`), or in any other set of them. `Watched g P` is the bus `P` with
a note of whether at each access so far these reads gave the bytes `g`: a run in which
the note is still true is one in which the bytes of these entries did not change.

Key definitions: `Gdt`, `Matches`, `Watched`, `SegOk`, `SegRun`.
Key theorems: `loadSreg_match`, `step_match`, `segCaches_match`.
-/
import Nemu.Cpu.FlatBus
import Nemu.Cpu.Guarded

namespace Nemu

open Bytes Cmd Instr

set_option synthInstance.maxSize 10000

/-! ### Descriptors -/

/-- The address of the GDT, its entries, and the bytes from its address on. -/
structure Gdt where
  base : Word
  entries : Set ℕ
  bytes : ℕ → Byte

/-- The entries that a limit covers. -/
def Gdt.covered (limit : BitVec 16) : Set ℕ := {i | 8 * i + 7 ≤ limit.toNat}

/-- The base of a descriptor: its bytes 2, 3, 4 and 7. -/
def Gdt.segBase (g : Gdt) (i : ℕ) : Word :=
  word (fun j => g.bytes (8 * i + if j = 3 then 7 else 2 + j)) 4

/-- The limit of a descriptor: its bytes 0 and 1, and four bits of byte 6. -/
def Gdt.segLimit (g : Gdt) (i : ℕ) : Word :=
  word (fun j => if j = 2 then g.bytes (8 * i + 6) &&& 0xf else g.bytes (8 * i + j)) 3

/-- The limit in a cache. -/
def SegDesc.limit (d : SegDesc) : Word := d.limit19_16.setWidth 32 <<< 16 ||| d.limit15_0.setWidth 32

/-- The cache of a segment register is that of the descriptor of its selector. -/
structure Described (g : Gdt) (s : SegReg) : Prop where
  base : s.cache.base = g.segBase (segIndex s.selector).toNat
  limit : s.cache.limit = g.segLimit (segIndex s.selector).toNat

/-- So it is if the selector is one of an entry of the GDT. -/
def Matches (g : Gdt) (s : SegReg) : Prop := (segIndex s.selector).toNat ∈ g.entries → Described g s

/-! ### Which register `mov` loads -/

section Loc

variable {P : Type} [Bus P]

/-- The number in an operand record. -/
def LocIs (k : Slot) (v : Word) (m : Machine P) : Prop := m.loc k = v

omit [Bus P] in
theorem LocIs.setOperand {m : Machine P} {k k' : Slot} {v : Word} {o : Operand} (h : LocIs k v m)
    (ho : k = k' → o.loc = v) : LocIs k v (m.setOperand k' o) := by
  unfold LocIs Machine.loc
  rw [Machine.operand_setOperand]
  split
  · next hk => exact ho hk
  · exact h

omit [Bus P] in
instance (v : Word) : RmKept (LocIs (P := P) .src v) .dest where
  setType _ := ⟨fun _ h => h.setOperand nofun⟩
  setLoc _ := ⟨fun _ h => h.setOperand nofun⟩
  setOpSreg _ := ⟨fun _ h => h.setOperand nofun⟩
  setVal _ := ⟨fun _ h => h.setOperand nofun⟩

instance (v w : Word) : Kept (LocIs (P := P) .src v) (Machine.setVal · .src w) :=
  ⟨fun _ h => h.setOperand fun _ => h⟩

instance (v : Word) (b : P) : Kept (LocIs (P := P) .src v) (Machine.setBus · b) := ⟨fun _ h => h⟩

/-- The `reg` field of the ModR/M byte. -/
theorem decodeR2rm_loc (d : Width) (eip : Word) (m : Machine P) :
    Ends (fun _ m' => ∀ v, value (instrFetch eip 1 m) = some v → LocIs .src (regNo (bits35 v)) m')
      (fun _ => True) (decodeR2rm d eip m) := by
  unfold decodeR2rm decodeRmInternal
  rw [write_bind_run]
  have hfetch := swaddrRead_run (P := P) eip 1 1
  have hmodrm : Ends (fun _ m' => ∀ v, value (instrFetch eip 1 m) = some v →
      LocIs .src (regNo (bits35 v)) m') (fun _ => True)
        (readModRM d eip .dest .src (m.setSize .dest d.bytes)) := by
    unfold readModRM instrFetch
    rw [bind_run, hfetch, hfetch]
    have hsame : readMem (m.setSize .dest d.bytes).cpu eip 1 1 (m.setSize .dest d.bytes).bus =
        readMem m.cpu eip 1 1 m.bus := rfl
    rw [hsame]
    cases readMem m.cpu eip 1 1 m.bus with
    | none => trivial
    | some r =>
      dsimp only [andThen]
      rw [write_bind_run, write_bind_run]
      have hloc : LocIs .src (regNo (bits35 r.1))
          ((((m.setSize .dest d.bytes).setBus r.2).setType .src .reg).setLoc .src
            (regNo (bits35 r.1))) := by
        unfold LocIs Machine.loc Machine.setLoc
        rw [Machine.operand_setOperand, if_pos rfl]
      refine (Keeps.post hloc).mono (fun _ m' h v hv => ?_) fun _ h => h
      rw [← Option.some.inj hv]
      exact h
  refine hmodrm.bind fun x m' h => ?_
  rw [read_bind_run, write_bind_run]
  exact fun v hv => Kept.kept (g := (Machine.setVal · .src _)) m' (h v hv)

end Loc

/-! ### A bus that watches the GDT -/

/-- A bus, and whether the GDT was read as `g` at each access so far. -/
structure Watched (g : Gdt) (P : Type) where
  bus : P
  same : Prop

section Watched

variable {g : Gdt} {P : Type} [Bus P]

/-- One and two bytes of an entry of the GDT, if they can be read, are those of `g`. -/
def Gdt.ReadAs (g : Gdt) (cr0 cr3 : Word) (p : P) : Prop :=
  ∀ i ∈ g.entries, ∀ j n, j + n ≤ 8 → n = 1 ∨ n = 2 → ∀ r,
    Bus.lnaddrRead cr0 cr3 (g.base + BitVec.ofNat 32 (8 * i + j)) n p = some r →
      r.1.setWidth 32 = word (fun k => g.bytes (8 * i + j + k)) n

instance : Bus (Watched g P) where
  lnaddrRead cr0 cr3 addr len := fun w => (Bus.lnaddrRead cr0 cr3 addr len w.bus).map fun r =>
    (r.1, ⟨r.2, w.same ∧ g.ReadAs cr0 cr3 w.bus⟩)
  lnaddrWrite cr0 cr3 addr len data := fun w =>
    (Bus.lnaddrWrite cr0 cr3 addr len data w.bus).map fun r =>
      ((), ⟨r.2, w.same ∧ g.ReadAs cr0 cr3 w.bus⟩)
  initTLB := fun w => ⟨Bus.initTLB w.bus, w.same⟩
  pioRead addr len := fun w => (Bus.pioRead addr len w.bus).map fun r => (r.1, ⟨r.2, w.same⟩)
  pioWrite addr len data := fun w =>
    (Bus.pioWrite addr len data w.bus).map fun r => ((), ⟨r.2, w.same⟩)
  INTR := fun w => Bus.INTR w.bus
  i8259QueryIntr := fun w => Bus.i8259QueryIntr w.bus
  i8259AckIntr := fun w => (Bus.i8259AckIntr w.bus).map fun r => ((), ⟨r.2, w.same⟩)

omit [Bus P] in
/-- The note is only ever withdrawn. -/
theorem Watched.keeps {α : Type} {I : Machine (Watched g P) → Prop} {E : Failure → Prop}
    [he : Allows E .assertion] (f : Watched g P → Option (α × Watched g P))
    (hI : ∀ m w, (w.same → m.bus.same) → I m → I (m.setBus w))
    (hf : ∀ w r, f w = some r → r.2.same → w.same) : Keeps I (Nemu.bus f) E := by
  refine ⟨fun m hm => ?_⟩
  unfold Nemu.bus access
  cases h : f m.bus with
  | none =>
    simp only [h, Option.map_none]
    exact he.allowed
  | some r =>
    simp only [h, Option.map_some]
    exact hI m r.2 (hf _ _ h) hm

/-- The cache of register `r` matches its selector, as long as the GDT is as
watched, or else `L`. -/
def Fresh (r : Fin 6) (L : Prop) (m : Machine (Watched g P)) : Prop :=
  L ∨ (m.bus.same → Matches g (m.cpu.sreg r))

variable {r : Fin 6} {L : Prop}

instance : OpsKept (P := Watched g P) (Fresh r L) where
  setOperand _ _ := ⟨fun _ h => h⟩
  copyOperand _ _ := ⟨fun _ h => h⟩
  setType _ _ := ⟨fun _ h => h⟩
  setSize _ _ := ⟨fun _ h => h⟩
  setLoc _ _ := ⟨fun _ h => h⟩
  setOpSreg _ _ := ⟨fun _ h => h⟩
  setVal _ _ := ⟨fun _ h => h⟩
  setOpcode _ := ⟨fun _ h => h⟩
  setOperandSize16 _ := ⟨fun _ h => h⟩

instance : CpuKept (P := Watched g P) (Fresh r L) where
  setVal _ _ := ⟨fun _ h => h⟩
  setReg d _ _ := ⟨fun _ h => by cases d <;> exact h⟩
  setFlag _ _ _ := ⟨fun _ h => h⟩
  setEip _ := ⟨fun _ h => h⟩
  setGdtr _ := ⟨fun _ h => h⟩
  setIdtr _ := ⟨fun _ h => h⟩
  setCr0 _ := ⟨fun _ h => h⟩
  setCr3 _ := ⟨fun _ h => h⟩
  setState _ := ⟨fun _ h => h⟩
  setText _ := ⟨fun _ h => h⟩

omit [Bus P] in
theorem Fresh.setBus {m : Machine (Watched g P)} {w : Watched g P} (hw : w.same → m.bus.same)
    (h : Fresh r L m) : Fresh r L (m.setBus w) :=
  h.imp_right fun hm hs => hm (hw hs)

instance : BusKept (P := Watched g P) (Fresh r L) where
  assertion := inferInstance
  lnaddrRead addr len := by
    refine keeps_lnaddrRead addr len fun _ _ =>
      Watched.keeps _ (fun _ _ hw h => h.setBus hw) fun w r h hs => ?_
    obtain ⟨x, -, rfl⟩ := Option.map_eq_some_iff.mp h
    exact hs.1
  lnaddrWrite addr len data := by
    have hb : ∀ c : Word × Word, Keeps (Fresh (P := P) (g := g) r L)
        (Nemu.bus (Bus.lnaddrWrite c.1 c.2 addr len data)) := by
      refine fun c => Watched.keeps _ (fun _ _ hw h => h.setBus hw) fun w r h hs => ?_
      obtain ⟨x, -, rfl⟩ := Option.map_eq_some_iff.mp h
      exact hs.1
    unfold Nemu.lnaddrWrite
    infer_instance
  pioRead addr len := by
    refine Watched.keeps _ (fun _ _ hw h => h.setBus hw) fun w r h hs => ?_
    obtain ⟨x, -, rfl⟩ := Option.map_eq_some_iff.mp h
    exact hs
  pioWrite addr len data := by
    refine Watched.keeps _ (fun _ _ hw h => h.setBus hw) fun w r h hs => ?_
    obtain ⟨x, -, rfl⟩ := Option.map_eq_some_iff.mp h
    exact hs
  i8259AckIntr := by
    refine Watched.keeps _ (fun _ _ hw h => h.setBus hw) fun w r h hs => ?_
    obtain ⟨x, -, rfl⟩ := Option.map_eq_some_iff.mp h
    exact hs
  initTLB := ⟨fun m h => h.setBus fun hs => hs⟩

/-! ### Loading a segment register -/

/-- A read of an entry of the GDT gives its bytes, if the note is still there. -/
theorem lnaddrRead_watched {i j n : ℕ} (hj : j + n ≤ 8) (hn : n = 1 ∨ n = 2) (m : Machine (Watched g P)) :
    Ends (fun v m' => i ∈ g.entries → m'.bus.same →
        m.bus.same ∧ v = word (fun k => g.bytes (8 * i + j + k)) n)
      (fun _ => False) (lnaddrRead (g.base + BitVec.ofNat 32 (8 * i + j)) n m) := by
  unfold lnaddrRead
  rw [if_pos (by omega), read_bind_run, bind_run, Nemu.bus, access]
  have hmap : Bus.lnaddrRead (P := Watched g P) m.cpu.cr0 m.cpu.cr3 (g.base + BitVec.ofNat 32 (8 * i + j)) n
      m.bus = (Bus.lnaddrRead m.cpu.cr0 m.cpu.cr3 (g.base + BitVec.ofNat 32 (8 * i + j)) n m.bus.bus).map
        fun r => (r.1, ⟨r.2, m.bus.same ∧ g.ReadAs m.cpu.cr0 m.cpu.cr3 m.bus.bus⟩) := rfl
  cases h : Bus.lnaddrRead m.cpu.cr0 m.cpu.cr3 (g.base + BitVec.ofNat 32 (8 * i + j)) n m.bus.bus with
  | none =>
    rw [hmap, h]
    trivial
  | some x =>
    rw [hmap, h]
    exact fun hi hs => ⟨hs.1, hs.2 i hi j n hj hn x h⟩

/-- The address of a byte of a descriptor. -/
theorem desc_addr (base : Word) (sel : BitVec 16) (j : ℕ) :
    base + 8 * segIndex sel + BitVec.ofNat 32 j =
      base + BitVec.ofNat 32 (8 * (segIndex sel).toNat + j) := by
  rw [BitVec.ofNat_add, ← BitVec.add_assoc, BitVec.ofNat_mul, BitVec.ofNat_toNat, BitVec.setWidth_eq]
  rfl

/-- The fields that are loaded are those of the descriptor. -/
theorem described_of_fields {i : ℕ} {sel : BitVec 16} (hi : (segIndex sel).toNat = i)
    {base15 base23 base31 limit15 limit19 : Word}
    (h1 : base15 = word (fun j => g.bytes (8 * i + 2 + j)) 2)
    (h2 : base23 = word (fun j => g.bytes (8 * i + 4 + j)) 1)
    (h3 : base31 = word (fun j => g.bytes (8 * i + 7 + j)) 1)
    (h4 : limit15 = word (fun j => g.bytes (8 * i + j)) 2)
    (h5 : limit19 = word (fun j => g.bytes (8 * i + 6 + j)) 1) :
    Described g ⟨sel, ⟨base15.setWidth 16, base23.setWidth 8, base31.setWidth 8, limit15.setWidth 16,
      (limit19 &&& 0xf).setWidth 4⟩⟩ := by
  subst h1 h2 h3 h4 h5
  have hnib : ∀ (w : Word) (j : ℕ), j < 4 →
      byte (((w &&& 0xf).setWidth 4).setWidth 32) j = if j = 0 then byte w 0 &&& 0xf else 0 := by
    intro w j hj
    have hlow : (w &&& 0xf).setWidth 4 = w.setWidth 4 := by
      rw [BitVec.setWidth_and, show BitVec.setWidth 4 (0xf : Word) = BitVec.allOnes 4 from rfl,
        BitVec.and_allOnes]
    apply BitVec.eq_of_getLsbD_eq
    intro p hp
    rw [hlow, getLsbD_byte, BitVec.getLsbD_setWidth, BitVec.getLsbD_setWidth]
    split_ifs with h
    · subst h
      have hf : ∀ p : Fin 8, (0xf : Byte).getLsbD p.val = decide (p.val < 4) := by decide
      rw [BitVec.getLsbD_and, getLsbD_byte, hf ⟨p, hp⟩]
      simp [hp, show p < 32 by omega, Bool.and_comm]
    · simp [show ¬ 8 * j + p < 4 by omega]
  constructor
  · rw [hi]
    apply ext_bytes
    intro j hj
    rw [Gdt.segBase, byte_word _ _ _ hj, SegDesc.base, byte_or, byte_or]
    have h24 := byte_shl (((word (fun j => g.bytes (8 * i + 7 + j)) 1).setWidth (8 * 1)).setWidth 32) 3 j hj
    have h16 := byte_shl (((word (fun j => g.bytes (8 * i + 4 + j)) 1).setWidth (8 * 1)).setWidth 32) 2 j hj
    have h0 := byte_trunc (word (fun j => g.bytes (8 * i + 2 + j)) 2) (n := 2) hj
    rw [byte_trunc _ (by omega), byte_word _ _ _ (by omega)] at h24 h16
    rw [byte_word _ _ _ hj] at h0
    simp only [Nat.reduceMul] at h24 h16 h0
    rw [h24, h16, h0]
    interval_cases j <;> simp
  · rw [hi]
    apply ext_bytes
    intro j hj
    rw [Gdt.segLimit, byte_word _ _ _ hj, SegDesc.limit, byte_or]
    have h16 := byte_shl (((word (fun j => g.bytes (8 * i + 6 + j)) 1 &&& 0xf).setWidth 4).setWidth 32) 2 j hj
    have h0 := byte_trunc (word (fun j => g.bytes (8 * i + j)) 2) (n := 2) hj
    rw [hnib _ _ (by omega), byte_word _ _ _ (by omega)] at h16
    rw [byte_word _ _ _ hj] at h0
    simp only [Nat.reduceMul] at h16 h0
    rw [h16, h0]
    interval_cases j <;> simp

/-- What is loaded is the descriptor, and the other registers stay. -/
theorem loadSreg_match {i : Fin 6} {sel : BitVec 16} {m : Machine (Watched g P)}
    (hg : m.cpu.gdtr.base = g.base) (h : Fresh r (r = i) m) :
    Ends (fun _ => Fresh r False) (fun _ => False) (loadSreg i sel m) := by
  by_cases hr : r = i
  · subst hr
    set k := (segIndex sel).toNat with hk
    unfold loadSreg
    rw [write_bind_run, read_bind_run]
    have hgdt : (m.setSelector r sel).cpu.gdtr.base = g.base := hg
    rw [hgdt]
    have hdesc : g.base + 8 * segIndex sel = g.base + BitVec.ofNat 32 (8 * k + 0) :=
      (BitVec.add_zero _).symm.trans (desc_addr g.base sel 0)
    have ha2 : g.base + 8 * segIndex sel + 2 = g.base + BitVec.ofNat 32 (8 * k + 2) := desc_addr ..
    have ha4 : g.base + 8 * segIndex sel + 4 = g.base + BitVec.ofNat 32 (8 * k + 4) := desc_addr ..
    have ha6 : g.base + 8 * segIndex sel + 6 = g.base + BitVec.ofNat 32 (8 * k + 6) := desc_addr ..
    have ha7 : g.base + 8 * segIndex sel + 7 = g.base + BitVec.ofNat 32 (8 * k + 7) := desc_addr ..
    refine Ends.bind (by rw [ha2]; exact lnaddrRead_watched (by omega) (.inr rfl) _) fun v1 m1 h1 => ?_
    refine Ends.bind (by rw [ha4]; exact lnaddrRead_watched (by omega) (.inl rfl) _) fun v2 m2 h2 => ?_
    refine Ends.bind (by rw [ha7]; exact lnaddrRead_watched (by omega) (.inl rfl) _) fun v3 m3 h3 => ?_
    refine Ends.bind (by rw [hdesc]; exact lnaddrRead_watched (by omega) (.inr rfl) _) fun v4 m4 h4 => ?_
    refine Ends.bind (by rw [ha6]; exact lnaddrRead_watched (by omega) (.inl rfl) _) fun v5 m5 h5 => ?_
    have hself : ∀ s, (m5.setSreg r s).cpu.sreg r = s := fun s => Function.update_self ..
    refine .inr fun hs => ?_
    rw [hself]
    intro hin
    change k ∈ g.entries at hin
    obtain ⟨hs, h5⟩ := h5 hin hs
    obtain ⟨hs, h4⟩ := h4 hin hs
    obtain ⟨hs, h3⟩ := h3 hin hs
    obtain ⟨hs, h2⟩ := h2 hin hs
    obtain ⟨hs, h1⟩ := h1 hin hs
    exact described_of_fields hk.symm h1 h2 h3 h4 h5
  · have hs : ∀ s, Kept (Fresh (P := P) (g := g) r False) (Machine.setSreg · i s) := by
      refine fun s => ⟨fun m hm => hm.imp_right fun hm hs => ?_⟩
      have hne : (m.setSreg i s).cpu.sreg r = m.cpu.sreg r := Function.update_of_ne hr ..
      rw [hne]
      exact hm hs
    have hv : ∀ v, Kept (Fresh (P := P) (g := g) r False) (Machine.setSelector · i v) :=
      fun v => ⟨fun m hm => (hs _).kept m hm⟩
    have hkeep : Keeps (Fresh r False) (loadSreg (P := Watched g P) i sel) := by
      unfold loadSreg
      dsimp only
      infer_instance
    have hstraight : Straight (loadSreg (P := Watched g P) i sel) := by
      unfold loadSreg
      dsimp only
      infer_instance
    exact Straight.keeps (.inr (h.resolve_left hr))

/-! ### The instructions that load one -/

/-- The address of the GDT is that of `g`. -/
abbrev AtGdt : Machine (Watched g P) → Prop := OnCpu fun c => c.gdtr.base = g.base

instance (d : Width) (i : Fin 8) (v : Word) : Kept (AtGdt (P := P) (g := g)) (Machine.setReg · d i v) :=
  ⟨fun _ h => by cases d <;> exact h⟩
instance (v : Word) : Kept (AtGdt (P := P) (g := g)) (Machine.setEip · v) := ⟨fun _ h => h⟩

omit [Bus P] in
/-- A command that loads no segment register, and then one that does. -/
theorem load_after {α β : Type} {J : Machine (Watched g P) → Prop} {c : Cmd (Machine (Watched g P)) α}
    {k : α → Cmd (Machine (Watched g P)) β} {m : Machine (Watched g P)} [Straight c] [Keeps AtGdt c]
    [Keeps (Fresh r L) c] (hg : AtGdt m) (h : Fresh r L m)
    (hk : ∀ a m, AtGdt m → Fresh r L m → Ends (fun _ => Fresh r False) J (k a m)) :
    Ends (fun _ => Fresh r False) J ((c >>= k) m) := by
  have hc : Ends (fun _ m => AtGdt m ∧ Fresh r L m) J (c m) :=
    ((Straight.keeps (J := J) hg).and (Straight.keeps (J := J) h)).mono (fun _ _ h => h) fun _ h => h.1
  exact hc.bind fun a m h => hk a m h.1 h.2

/-- `ljmp`. -/
theorem jmpL_match {d : Width} {eip : Word} {m : Machine (Watched g P)} (hg : AtGdt m)
    (h : Fresh r (r = 1) m) : Ends (fun _ => Fresh r False) (Fresh r False) (jmpL d eip m) := by
  unfold jmpL
  refine load_after hg h fun offset m hg h => load_after hg h fun cs m hg h => ?_
  refine load_after hg h fun _ m hg h => ?_
  exact ((loadSreg_match hg h).mono (fun _ _ h => h) fun _ h => h.elim).bind fun _ m h => h

/-- The entry of an interrupt. -/
theorem raiseIntr_match {no : Byte} {m : Machine (Watched g P)} (hg : AtGdt m)
    (h : Fresh r (r = 1) m) : Ends (fun _ => Fresh r False) (Fresh r False) (raiseIntr no m) := by
  rw [raiseIntr_eq]
  refine Ends.bind (Q := fun _ => Fresh r False) ?_ fun _ m h => h
  refine load_after hg h fun gs m hg h => ?_
  exact ((loadSreg_match hg h).mono (fun _ _ h => h) fun _ h => h.elim).bind fun _ m h =>
    Keeps.ends m h

/-- `int`. -/
theorem intI_match {eip : Word} {m : Machine (Watched g P)} (hg : AtGdt m)
    (h : Fresh r (r = 1) m) : Ends (fun _ => Fresh r False) (Fresh r False) (intI eip m) := by
  unfold intI
  refine load_after hg h fun imm m hg h => load_after hg h fun cur m hg h => ?_
  exact load_after hg h fun _ m hg h => raiseIntr_match hg h

/-- `mov` to a segment register. -/
theorem movRm2s_match {eip : Word} {m : Machine (Watched g P)} (hg : AtGdt m)
    (h : Fresh r (∃ v, value (instrFetch (eip + 1) 1 m) = some v ∧ (bits35 v).val = r.val) m) :
    Ends (fun _ => Fresh r False) (Fresh r False) (movRm2s eip m) := by
  unfold movRm2s
  have hdec := ((Straight.keeps (c := decodeR2rm .w (eip + 1)) (J := Fresh r False) hg).and
    (Straight.keeps (J := fun _ => True) h)).and (decodeR2rm_loc .w (eip + 1) m)
  refine (hdec.mono (fun _ _ h => h) fun _ h => h.1.1).bind fun len m' hm => ?_
  obtain ⟨⟨hg', h'⟩, hloc⟩ := hm
  rw [read_bind_run, read_bind_run]
  refine Ends.bind (Q := fun _ => Fresh r False) ?_ fun _ m h => h
  by_cases hi : (m'.loc .src).toNat < 4
  · rw [if_pos hi]
    have hfresh : Fresh r (r = Fin.ofNat 6 (m'.loc .src).toNat) m' := by
      refine h'.imp_left fun hv => ?_
      obtain ⟨v, hv, hr⟩ := hv
      have hno : m'.loc .src = regNo (bits35 v) := hloc v hv
      apply Fin.ext
      rw [hno, ← hr, regNo, Fin.val_ofNat, BitVec.toNat_ofNat]
      have h6 := r.isLt
      omega
    exact (loadSreg_match hg' hfresh).mono (fun _ _ h => h) fun _ h => h.elim
  · rw [if_neg hi]
    trivial

/-! ### The return from an interrupt -/

/-- The selector that `iret` pops. -/
def iretSelector : Cmd (Machine P) Word := do
  let esp ← read (·.reg .l rESP)
  let _ ← swaddrRead esp 4 2
  swaddrRead (esp + 4) 4 2

/-- The selector that `iret` pops is of the descriptor that the cache of `cs` holds. -/
def IretOk (g : Gdt) (m : Machine P) : Prop :=
  ∀ cs, value (iretSelector m) = some cs → Matches g ⟨cs.setWidth 16, (m.cpu.sreg 1).cache⟩

instance (v : Word) : Kept (Fresh (P := P) (g := g) r L) (Machine.setEflags · v) := ⟨fun _ h => h⟩

/-- `iret`. -/
theorem iret_match {eip : Word} {m : Machine (Watched g P)} (hok : IretOk g m)
    (h : Fresh r (r = 1) m) : Ends (fun _ => Fresh r False) (Fresh r False) (iret eip m) := by
  unfold iret
  rw [read_bind_run, bind_run, swaddrRead_run]
  cases h1 : readMem m.cpu (m.reg .l rESP) 4 2 m.bus with
  | none => trivial
  | some x =>
    have hx : Fresh r (r = 1) (m.setBus x.2) := by
      have hkeep := Keeps.ends (c := swaddrRead (m.reg .l rESP) 4 2) (E := fun _ => True) m h
      rw [swaddrRead_run, h1] at hkeep
      exact hkeep
    dsimp only [andThen]
    rw [write_bind_run, write_bind_run, bind_run, swaddrRead_run]
    have hsame : ∀ addr e v, readMem (((m.setBus x.2).setEip e).setReg .l rESP v).cpu addr 4 2
        (((m.setBus x.2).setEip e).setReg .l rESP v).bus = readMem m.cpu addr 4 2 x.2 :=
      fun _ _ _ => rfl
    rw [hsame]
    cases h2 : readMem m.cpu (m.reg .l rESP + 4) 4 2 x.2 with
    | none => trivial
    | some y =>
      have hcs : value (iretSelector m) = some y.1 := by
        have hbus : readMem (m.setBus x.2).cpu (m.reg .l rESP + 4) 4 2 (m.setBus x.2).bus =
          readMem m.cpu (m.reg .l rESP + 4) 4 2 x.2 := rfl
        unfold iretSelector
        rw [read_bind_run, bind_run, swaddrRead_run, h1]
        dsimp only [andThen]
        rw [swaddrRead_run, hbus, h2]
        rfl
      have hy : Fresh r (r = 1) (m.setBus y.2) := by
        have hkeep := Keeps.ends (c := swaddrRead (m.reg .l rESP + 4) 4 2) (E := fun _ => True) _ hx
        rw [swaddrRead_run, show readMem (m.setBus x.2).cpu (m.reg .l rESP + 4) 4 2
          (m.setBus x.2).bus = some y from h2] at hkeep
        exact hkeep
      dsimp only [andThen]
      rw [write_bind_run]
      refine Keeps.ends _ ?_
      by_cases hr : r = 1
      · subst hr
        refine .inr fun _ => ?_
        have hself : ∀ m : Machine (Watched g P), (m.setSelector 1 (y.1.setWidth 16)).cpu.sreg 1 =
          ⟨y.1.setWidth 16, (m.cpu.sreg 1).cache⟩ := fun m => Function.update_self 1 _ m.cpu.sreg
        rw [hself]
        exact hok y.1 hcs
      · refine .inr fun hs => ?_
        have hother : ∀ m : Machine (Watched g P), (m.setSelector 1 (y.1.setWidth 16)).cpu.sreg r =
          m.cpu.sreg r := fun _ => Function.update_of_ne hr ..
        rw [hother]
        exact hy.resolve_left hr hs

/-! ### Runs -/

/-- The GDT is at its address. -/
def GdtHeld (g : Gdt) : Guard (Watched g P) := fun _ _ m => AtGdt m

/-- Moreover, `iret` pops a selector that the cache is right for. -/
def SegOk (g : Gdt) : Guard (Watched g P) := fun opcode eip m =>
  GdtHeld g opcode eip m ∧ (opcode.toNat = 0xcf → IretOk g m)

/-- The instruction loads register `r`: `mov`, or one that loads `cs`. -/
def Loads (r : Fin 6) : Guard P := fun opcode eip m =>
  opcode.toNat = 0x8e ∧ (∃ v, value (instrFetch (eip + 1) 1 m) = some v ∧ (bits35 v).val = r.val) ∨
    opcode.toNat ∈ [0xcd, 0xcf, 0xea] ∧ r = 1

instance (b : Bool) : Kept (Fresh (P := P) (g := g) r L) (Machine.setFlag · .IF b) := ⟨fun _ h => h⟩

/-- Each of the special instructions leaves a cache that matches. -/
theorem loose_match {opcode eip : Word} {m : Machine (Watched g P)} (hk : opcode.toNat ∈ loose)
    (hok : SegOk g opcode eip m) (h : Fresh r (Loads r opcode eip m) m) :
    Ends (fun _ => Fresh r False) (Fresh r False) (instrAt opcode eip m) := by
  have hg := hok.1
  unfold Loads at h
  refine instrAt_loose (C := fun k c => opcode.toNat = k →
    Ends (fun _ => Fresh r False) (Fresh r False) (c eip m)) hk ?_ ?_ ?_ ?_ ?_ ?_ ?_ rfl
  all_goals intro hop; rw [hop] at h
  · exact Keeps.ends m (h.imp_left fun hl => by simp at hl)
  · exact movRm2s_match hg (h.imp_left fun hl => by simpa using hl)
  · exact intI_match hg (h.imp_left fun hl => by simpa using hl)
  · exact iret_match (hok.2 hop) (h.imp_left fun hl => by simpa using hl)
  · have hl : Fresh r (r = 1) m := h.imp_left fun hl => by simpa using hl
    unfold helperV
    rw [read_bind_run]
    split
    · exact jmpL_match hg hl
    · exact jmpL_match hg hl
  · unfold cli
    exact Keeps.ends m (h.imp_left fun hl => by simp at hl)
  · unfold sti
    exact Keeps.ends m (h.imp_left fun hl => by simp at hl)

/-- Without a load, a cache that matches still does. -/
theorem execWhile_fresh (fuel : ℕ) (eip : Word) :
    Keeps (Fresh r False) (execWhile (P := Watched g P) (SegOk g) fuel eip) :=
  execWhile_keeps (fun _ _ _ hk hok h => loose_match hk hok (h.imp_left False.elim)) fuel eip

/-- The instructions that do not load `r`. -/
def NoLoad (r : Fin 6) (G : Guard P) : Guard P := fun opcode eip m =>
  G opcode eip m ∧ ¬ Loads r opcode eip m

/-- What is not a run without a load leaves a cache that matches. -/
theorem execStepWhile_loaded (fuel : ℕ) :
    Agree (fun _ _ o => Ends (fun _ => Fresh r False) (Fresh r False) o)
      (execStepWhile (P := Watched g P) (NoLoad r (SegOk g)) fuel) (execStepWhile (SegOk g) fuel) := by
  have hB := sticks_ends (Fresh (P := P) (g := g) r False)
  have hrun : ∀ fuel eip, Agree (fun _ _ o => Ends (fun _ => Fresh r False) (Fresh r False) o)
      (execWhile (P := Watched g P) (NoLoad r (SegOk g)) fuel eip) (execWhile (SegOk g) fuel eip) := by
    refine execWhile_agree hB (fun _ _ _ h => h.1) execWhile_fresh fun fuel opcode eip m hG hG' => ?_
    have hl : Loads r opcode eip m := by_contra fun hl => hG' ⟨hG, hl⟩
    have hk : opcode.toNat ∈ loose ∧ opcode.toNat ∉ [0x66, 0xf2, 0xf3] := by
      unfold Loads at hl
      simp only [loose, List.mem_cons, List.not_mem_nil, or_false] at hl ⊢
      omega
    rw [entry_opcodeTable hk.2 _ inv fuel 0]
    exact loose_match hk.1 hG (.inl hl)
  exact .bind_same fun eip => .bind hB (hrun fuel eip) (fun _ => .refl _) fun _ => inferInstance

/-- Devices may do anything but bring the note back. -/
def Passive (w w' : Watched g P) : Prop := w'.same → w.same

/-- A step of the main loop with the GDT at its address. -/
abbrev SegStep (G : Guard (Watched g P)) : Machine (Watched g P) → Machine (Watched g P) → Prop :=
  Step G AtGdt Passive

/-- Such a step in which `r` is not loaded, by an instruction or for an interrupt. -/
abbrev SegStepWithout (r : Fin 6) (G : Guard (Watched g P)) :
    Machine (Watched g P) → Machine (Watched g P) → Prop :=
  Step (NoLoad r G) (fun m => AtGdt m ∧ r ≠ 1) Passive

/-- A step leaves a cache that matches if there was one before it or the register
is loaded in it. -/
theorem step_match {m m' : Machine (Watched g P)} (hs : SegStep (SegOk g) m m')
    (h : Fresh r (¬ SegStepWithout r (SegOk g) m m') m) : Fresh r False m' := by
  have hkeep : ∀ fuel, Keeps (Fresh r False) (execStepWhile (P := Watched g P) (SegOk g) fuel) := by
    have hexec := execWhile_fresh (P := P) (g := g) (r := r)
    unfold execStepWhile
    infer_instance
  -- either this run has no load, and the register was right before it, or it has one
  have hrun : ∀ fuel, (execStepWhile (NoLoad r (SegOk g)) fuel m = execStepWhile (SegOk g) fuel m →
      Fresh r False m) → Ends (fun _ => Fresh r False) (Fresh r False) (execStepWhile (SegOk g) fuel m) := by
    intro fuel hm
    rcases execStepWhile_loaded fuel m with heq | hload
    · exact (hkeep fuel).ends m (hm heq)
    · exact hload
  cases hs with
  | @next fuel m₁ p he hd hi =>
    have h₁ := hrun fuel fun heq => .inr (h.resolve_left fun hno => hno (.next (heq.trans he) hd hi))
    rw [he] at h₁
    rw [checkIntr_ok hi]
    exact Fresh.setBus hd h₁
  | @deliver fuel m₁ p he hd hc hi =>
    obtain ⟨-, -, m₂, hack, hraise⟩ := checkIntr_jump hi
    have hg : AtGdt m₂ := by
      have := Keeps.ends (c := bus Bus.i8259AckIntr) (E := fun _ => True) _ hc
      rwa [hack] at this
    have hfresh : Fresh r (r = 1) m₂ := by
      by_cases hr : r = 1
      · exact .inl hr
      · have h₁ := hrun fuel fun heq =>
          .inr (h.resolve_left fun hno => hno (.deliver (heq.trans he) hd ⟨hc, hr⟩ hi))
        rw [he] at h₁
        have h₂ := Keeps.ends (c := bus Bus.i8259AckIntr) (E := fun _ => True) _ (Fresh.setBus hd h₁)
        rw [hack] at h₂
        exact h₂.imp_left False.elim
    have hend : Ends (fun _ => Fresh r False) (Fresh r False)
        (raiseIntr (Bus.i8259QueryIntr (m₁.setBus p).bus) m₂) := raiseIntr_match hg hfresh
    rwa [hraise] at hend
  | @trap fuel he =>
    have h₁ := hrun fuel fun heq => .inr (h.resolve_left fun hno => hno (.trap (heq.trans he)))
    rwa [he] at h₁
  | @stop fuel m₁ p he hd hs hm =>
    have h₁ := hrun fuel fun heq => .inr (h.resolve_left fun hno => hno (.stop (heq.trans he) hd hs hm))
    rw [he] at h₁
    rw [hm]
    exact Kept.kept (g := (Machine.setState · .running)) _ (Fresh.setBus hd h₁)

/-- A run that starts with the caches of `L` right, if any, and the registers
that were right at its start or loaded in it. -/
inductive SegRun (G : Guard (Watched g P)) : Set (Fin 6) → Machine (Watched g P) → Prop
  | start {L : Set (Fin 6)} {m : Machine (Watched g P)} (h : ∀ r ∈ L, Matches g (m.cpu.sreg r)) :
    SegRun G L m
  | step {L : Set (Fin 6)} {m m' : Machine (Watched g P)} (h : SegRun G L m) (hs : SegStep G m m') :
    SegRun G {r | r ∈ L ∨ ¬ SegStepWithout r G m m'} m'

/-- While the entries of the GDT do not change and `iret` pops only selectors that the
cache of `cs` is right for, the cache of every segment register that was loaded is that
of its selector. -/
theorem segCaches_match {L : Set (Fin 6)} {m : Machine (Watched g P)} (h : SegRun (SegOk g) L m)
    (hsame : m.bus.same) : ∀ r ∈ L, Matches g (m.cpu.sreg r) := by
  have hfresh : ∀ r ∈ L, Fresh r False m := by
    clear hsame
    induction h with
    | start h => exact fun r hr => .inr fun _ => h r hr
    | step h hs ih =>
      intro r hr
      apply step_match hs
      rcases hr with hr | hr
      · exact (ih r hr).imp_left False.elim
      · exact .inl hr
  exact fun r hr => (hfresh r hr).resolve_left id hsame

end Watched

/-! ### A return to another descriptor -/

/-- A machine with flat memory, watched. -/
def watching (g : Gdt) (m : Machine FlatBus) : Machine (Watched g FlatBus) :=
  ⟨m.cpu, m.ops, m.state, ⟨m.bus, True⟩, m.assembly⟩

/-- The GDT that flat memory holds at this address, up to this limit. -/
def gdtAt (gdtr : DescReg) (p : FlatBus) : Gdt :=
  ⟨gdtr.base, Gdt.covered gdtr.limit, fun k => p.mem (gdtr.base + BitVec.ofNat 32 k)⟩

theorem gdtAt_readAs (gdtr : DescReg) (cr0 cr3 : Word) (p : FlatBus) : (gdtAt gdtr p).ReadAs cr0 cr3 p := by
  intro i _ j n _ hn r hr
  obtain rfl := Option.some.inj hr
  apply ext_bytes
  intro k hk
  calc
    byte (((p.load (gdtr.base + BitVec.ofNat 32 (8 * i + j)) n).setWidth (8 * n)).setWidth 32) k
      = if k < n then p.mem (gdtr.base + BitVec.ofNat 32 (8 * i + j) + BitVec.ofNat 32 k) else 0 := by
        rw [byte_trunc _ hk, FlatBus.load, byte_word _ _ _ hk]
        split <;> rfl
    _ = if k < n then (gdtAt gdtr p).bytes (8 * i + j + k) else 0 := by
        simp only [gdtAt, BitVec.ofNat_add, BitVec.add_assoc]
    _ = byte (word (fun k => (gdtAt gdtr p).bytes (8 * i + j + k)) n) k := by rw [byte_word _ _ _ hk]

/-- `ljmp $16,$5` at address 0 and `iret` at 7; a GDT of 24 bytes at 8, with bases 0 and 2
in its descriptors 1 and 2; and from 32 on the frame that `iret` pops. -/
def iretMemory (cs : Byte) : List Byte :=
  [0xea, 5, 0, 0, 0, 16, 0, 0xcf, 0, 0, 0, 0, 0, 0, 0, 0,
    0, 0, 0, 0, 0, 0, 0, 0, 0, 0, 2, 0, 0, 0, 0, 0,
    0, 0, 0, 0, cs, 0, 0, 0, 2, 0, 0, 0]

/-- In protected mode, with descriptor 1 in all caches. -/
def iretMachine (cs : Byte) : Machine FlatBus :=
  let m := flatMachine (fun _ => 32) (iretMemory cs)
  { m with cpu := { m.cpu with gdtr := ⟨23, 8⟩, cr0 := 1, sreg := fun _ => ⟨8, ⟨0, 0, 0, 0, 0⟩⟩ } }

def iretGdt (cs : Byte) : Gdt := gdtAt ⟨23, 8⟩ (iretMachine cs).bus

/-- At the start the caches are right. -/
theorem iretMachine_match {cs : Byte} (hcs : cs = 8 ∨ cs = 16) (r : Fin 6) :
    Matches (iretGdt cs) ((iretMachine cs).cpu.sreg r) := by
  intro _
  have hsreg : (iretMachine cs).cpu.sreg r = ⟨8, ⟨0, 0, 0, 0, 0⟩⟩ := rfl
  rw [hsreg]
  rcases hcs with rfl | rfl
  · exact ⟨by decide +kernel, by decide +kernel⟩
  · exact ⟨by decide +kernel, by decide +kernel⟩

/-- The state in which `ljmp` starts, and the one it leaves. -/
def ljmpStart (cs : Byte) : Machine (Watched (iretGdt cs) FlatBus) := watching (iretGdt cs) (iretMachine cs)

def ljmpFetched (cs : Byte) : Machine (Watched (iretGdt cs) FlatBus) :=
  (stateD (ljmpStart cs) (instrFetch 0 1 (ljmpStart cs))).setOpcode 0xea

def ljmpDone (cs : Byte) : Machine (Watched (iretGdt cs) FlatBus) :=
  (stateD (ljmpStart cs) (helperV jmpL 0 (ljmpFetched cs))).setEip 5

/-- The state in which `iret` starts. -/
def iretFetched (cs : Byte) : Machine (Watched (iretGdt cs) FlatBus) :=
  (stateD (ljmpDone cs) (instrFetch 5 1 (ljmpDone cs))).setOpcode 0xcf

/-- The step that executes `ljmp`. -/
theorem ljmpMachine_step {cs : Byte} (hcs : cs = 8 ∨ cs = 16) {G : Guard (Watched (iretGdt cs) FlatBus)}
    (hG : G 0xea 0 (ljmpFetched cs)) : SegStep G (ljmpStart cs) (ljmpDone cs) := by
  rcases hcs with rfl | rfl
  · exact .next (execStepWhile_one rfl hG (by decide) rfl) id rfl
  · exact .next (execStepWhile_one rfl hG (by decide) rfl) id rfl

/-- The step that executes `iret`: the selector is the one on the stack, and the cache
is that of descriptor 2. -/
theorem iretMachine_step {cs : Byte} (hcs : cs = 8 ∨ cs = 16) {G : Guard (Watched (iretGdt cs) FlatBus)}
    (hG : G 0xcf 5 (iretFetched cs)) :
    ∃ m, SegStep G (ljmpDone cs) m ∧ m.bus.same ∧ m.cpu.protectEnable = true ∧
      m.cpu.sreg 1 = ⟨cs.setWidth 16, ⟨2, 0, 0, 0, 0⟩⟩ := by
  have hread := gdtAt_readAs ⟨23, 8⟩ 1 0 (iretMachine cs).bus
  have hljmp : (ljmpDone cs).bus.same := by
    rcases hcs with rfl | rfl
    · exact ⟨⟨⟨⟨⟨⟨⟨⟨trivial, hread⟩, hread⟩, hread⟩, hread⟩, hread⟩, hread⟩, hread⟩, hread⟩
    · exact ⟨⟨⟨⟨⟨⟨⟨⟨trivial, hread⟩, hread⟩, hread⟩, hread⟩, hread⟩, hread⟩, hread⟩, hread⟩
  rcases hcs with rfl | rfl
  · exact ⟨_, .next (execStepWhile_one rfl hG (by decide) rfl) id rfl,
      ⟨⟨⟨⟨hljmp, hread⟩, hread⟩, hread⟩, hread⟩, rfl, rfl⟩
  · exact ⟨_, .next (execStepWhile_one rfl hG (by decide) rfl) id rfl,
      ⟨⟨⟨⟨hljmp, hread⟩, hread⟩, hread⟩, hread⟩, rfl, rfl⟩

/-- `ljmp` loads `cs`, and `iret` pops the selector that it loaded. -/
theorem segCaches_match_iret : ∃ m : Machine (Watched (iretGdt 16) FlatBus),
    m.cpu.protectEnable = true ∧ (m.cpu.sreg 1).selector = 16 ∧ ∀ r, Matches (iretGdt 16) (m.cpu.sreg r) := by
  have hG₁ : SegOk (iretGdt 16) 0xea 0 (ljmpFetched 16) := ⟨rfl, fun h => absurd h (by decide)⟩
  have hG₂ : SegOk (iretGdt 16) 0xcf 5 (iretFetched 16) := by
    refine ⟨rfl, fun _ cs hcs => ?_⟩
    have hpop : value (iretSelector (iretFetched 16)) = some 16 := by decide +kernel
    obtain rfl := Option.some.inj (hpop.symm.trans hcs)
    exact fun _ => ⟨by decide +kernel, by decide +kernel⟩
  obtain ⟨m, hs, hsame, hpe, hcs⟩ := iretMachine_step (.inr rfl) hG₂
  have hrun : SegRun (SegOk (iretGdt 16)) Set.univ (ljmpStart 16) :=
    .start fun r _ => iretMachine_match (.inr rfl) r
  exact ⟨m, hpe, by rw [hcs]; rfl, fun r => segCaches_match ((hrun.step (ljmpMachine_step (.inr rfl) hG₁)).step hs)
    hsame r (.inl (.inl (Set.mem_univ r)))⟩

/-- `iret` to selector 8: the selector is that of descriptor 1, and the cache is still
that of descriptor 2. -/
theorem segCaches_stale : ∃ (L : Set (Fin 6)) (m : Machine (Watched (iretGdt 8) FlatBus)),
    SegRun (GdtHeld (iretGdt 8)) L m ∧ m.bus.same ∧ m.cpu.protectEnable = true ∧ 1 ∈ L ∧
      ¬ Matches (iretGdt 8) (m.cpu.sreg 1) := by
  have hG₁ : GdtHeld (iretGdt 8) 0xea 0 (ljmpFetched 8) := rfl
  have hG₂ : GdtHeld (iretGdt 8) 0xcf 5 (iretFetched 8) := rfl
  obtain ⟨m, hs, hsame, hpe, hcs⟩ := iretMachine_step (.inl rfl) hG₂
  have hrun : SegRun (GdtHeld (iretGdt 8)) Set.univ (ljmpStart 8) :=
    .start fun r _ => iretMachine_match (.inl rfl) r
  refine ⟨_, m, (hrun.step (ljmpMachine_step (.inl rfl) hG₁)).step hs, hsame, hpe,
    .inl (.inl (Set.mem_univ 1)), fun h => ?_⟩
  have hin : (segIndex (m.cpu.sreg 1).selector).toNat ∈ (iretGdt 8).entries := by
    rw [hcs]
    change 8 * _ + 7 ≤ _
    decide
  have hbase := (h hin).base
  rw [hcs] at hbase
  exact absurd hbase (by decide +kernel)

end Nemu
