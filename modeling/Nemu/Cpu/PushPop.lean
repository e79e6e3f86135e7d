/-
# Pushes, then pops

`push` moves 4 bytes at both operand sizes, and `pop esp` adds the operand size
to what it popped. With 32-bit operands, and destinations that are not the
stack's, pops in reverse order deliver what was pushed.

Key definitions: `PushStep`, `PopStep`, `PushRun`, `PopRun`.
Key theorems: `PushRun.stack`, `PopRun.delivers`, `push_pop`.
-/
import Nemu.Cpu.Stack

namespace Nemu

open Bytes Cmd Instr WordMem

set_option synthInstance.maxSize 10000

section Steps

variable {P : Type} [Bus P] [Ram P] {d : Width} {m m' : Machine P}

/-! ### One instruction -/

/-- The forms of `push`. -/
inductive PushForm where
  | r | rm | i | ib
  deriving DecidableEq

namespace PushForm

/-- The operand of `push imm8` is a byte at both operand sizes. -/
def decode (d : Width) : PushForm → Helper P
  | r => decodeR d
  | rm => decodeRm d
  | i => decodeI d
  | ib => decodeI .b

def helper (d : Width) : PushForm → Helper P
  | r => opR doPush d
  | rm => opRm doPush d
  | i => opI doPush d
  | ib => opI doPush .b

/-- The value of the operand. -/
def value (form : PushForm) (m : Machine P) : Word :=
  if form = ib then Width.sext .b (m.val .src) else m.val .src

end PushForm

/-- The forms of `pop`. -/
inductive PopForm where
  | r | rm
  deriving DecidableEq

namespace PopForm

def decode (d : Width) : PopForm → Helper P
  | r => decodeR d
  | rm => decodeRm d

def helper (d : Width) : PopForm → Helper P
  | r => opR doPop d
  | rm => opRm doPop d

end PopForm

set_option maxRecDepth 20000 in
omit [Ram P] in
/-- Their opcodes. -/
theorem pushPop_tables (exec : Helper P) (fuel : ℕ) :
    (∀ k < 8, entry (opcodeTable exec fuel) (0x50 + k) = helperV (PushForm.r.helper ·)) ∧
    entry (P := P) group5 6 = helperV (PushForm.rm.helper ·) ∧
    entry (opcodeTable exec fuel) 0x68 = helperV (PushForm.i.helper ·) ∧
    entry (opcodeTable exec fuel) 0x6a = PushForm.ib.helper .l ∧
    (∀ k < 8, entry (opcodeTable exec fuel) (0x58 + k) = helperV (PopForm.r.helper ·)) ∧
    entry (opcodeTable exec fuel) 0x8f = helperV (PopForm.rm.helper ·) := by
  refine ⟨fun k hk => ?_, rfl, rfl, rfl, fun k hk => ?_, rfl⟩ <;> interval_cases k <;> rfl

/-- A `push` of this value. -/
def PushStep (d : Width) (v : Word) (m m' : Machine P) : Prop :=
  ∃ (form : PushForm) (eip len : Word) (m₁ : Machine P), form.decode d (eip + 1) m = .ok len m₁ ∧
    form.helper d eip m = .ok (len + 1) m' ∧ form.value m₁ = v

/-- A `pop` with these operands. -/
def PopStep (d : Width) (decoded m m' : Machine P) : Prop :=
  ∃ (form : PopForm) (eip len : Word), form.decode d (eip + 1) m = .ok len decoded ∧
    form.helper d eip m = .ok (len + 1) m'

/-- The operand of the `pop` has this value. -/
inductive Delivered (d : Width) (v : Word) (decoded m' : Machine P) : Prop
  | reg (i : Fin 8) (htype : decoded.type .src = .reg) (hloc : decoded.loc .src = regNo i)
      (hreg : m'.reg d i = v)
  | mem (htype : decoded.type .src = .mem) (hmem : peek m'.mem
      (m'.cpu.linear (decoded.loc .src) (Fin.ofNat 6 (decoded.operand .src).sreg)) d.bytes = v)

/-- The destination of the `pop` is another register, or memory apart from these
bytes of the stack. -/
def Off (d : Width) (decoded : Machine P) (a : Word) (len : ℕ) : Prop :=
  if decoded.type .src = .reg then decoded.loc .src ≠ regNo rESP
  else Apart (decoded.cpu.linear (decoded.loc .src) (Fin.ofNat 6 (decoded.operand .src).sreg)) d.bytes a len

omit [Ram P] in
theorem PushForm.helper_eq (form : PushForm) (d : Width) :
    form.helper (P := P) d = idex (form.decode d) (doPush (if form = ib then .b else d)) := by
  cases form <;> rfl

omit [Ram P] in
theorem PopForm.helper_eq (form : PopForm) (d : Width) :
    form.helper (P := P) d = idex (form.decode d) (doPop d) := by
  cases form <;> rfl

instance {I : Machine P → Prop} [DecodeKept I] [ReadKept I] (form : PushForm) (eip : Word) :
    Keeps I (form.decode d eip) := by
  cases form <;> unfold PushForm.decode <;> infer_instance

instance {I : Machine P → Prop} [DecodeKept I] [ReadKept I] (form : PopForm) (eip : Word) :
    Keeps I (form.decode d eip) := by
  cases form <;> unfold PopForm.decode <;> infer_instance

/-- **One push.** -/
theorem PushStep.ok {v : Word} (hd : d ≠ .b) (h : PushStep d v m m') :
    m'.cpu = m.cpu.setReg .l rESP (m.reg .l rESP - 4) ∧
      m'.mem = poke m.mem (m.cpu.linear (m.reg .l rESP - 4) 2) 4 v := by
  obtain ⟨form, eip, len, m₁, hdec, hrun, rfl⟩ := h
  rw [form.helper_eq, idex, bind_ok hdec] at hrun
  obtain ⟨_, m₂, hpush, hm⟩ := bind_eq_ok hrun
  injection hm with _ hm
  subst hm
  have hcpu : m₁.cpu = m.cpu := cpu_of_keeps hdec
  have hmem : m₁.mem = m.mem := mem_of_keeps hdec
  obtain ⟨hcpu₂, hmem₂⟩ := doPush_ok hpush
  rw [reg_of_cpu hcpu, hcpu] at hcpu₂ hmem₂
  refine ⟨hcpu₂, hmem₂.trans ?_⟩
  rw [hmem, PushForm.value]
  by_cases hib : form = .ib
  · rw [if_pos hib, if_pos rfl, if_pos hib]
  · rw [if_neg hib, if_neg hd, if_neg hib]

omit [Ram P] in
/-- The operand in memory of a `pop` has the operand size. -/
theorem PopForm.decode_size {form : PopForm} {eip len : Word} {decoded : Machine P}
    (h : form.decode d eip m = .ok len decoded) (hmem : decoded.type .src = .mem) :
    (decoded.operand .src).size = d.bytes := by
  cases form with
  | r =>
    have htype := decodeR_type (show decodeR d eip m = .ok len decoded from h)
    rw [htype] at hmem
    exact nomatch hmem
  | rm =>
    have hsize : Ends (fun _ => SizeIs .src d.bytes) (fun _ => True)
        (decodeRmInternal d eip .src .src2 m) := decodeRmInternal_size d eip m
    rw [show decodeRmInternal d eip .src .src2 m = .ok len decoded from h] at hsize
    exact hsize

/-- What is left by a `pop`, from its decoded operands. -/
theorem PopStep.exec {decoded : Machine P} (h : PopStep d decoded m m') :
    decoded.cpu = m.cpu ∧ decoded.mem = m.mem ∧
    (decoded.type .src = .mem → (decoded.operand .src).size = d.bytes) ∧
    doPop d decoded = .ok () m' := by
  obtain ⟨form, eip, len, hdec, hrun⟩ := h
  rw [form.helper_eq, idex, bind_ok hdec] at hrun
  obtain ⟨_, m₂, hpop, hm⟩ := bind_eq_ok hrun
  injection hm with _ hm
  subst hm
  exact ⟨cpu_of_keeps hdec, mem_of_keeps hdec, form.decode_size hdec, hpop⟩

/-- **`pop esp`** does not leave what it popped. -/
theorem PopStep.esp {decoded : Machine P} (hd : d ≠ .b) (h : PopStep d decoded m m')
    (htype : decoded.type .src = .reg) (hloc : decoded.loc .src = regNo rESP) :
    m'.reg d rESP ≠ popped d decoded := by
  obtain ⟨-, -, -, hpop⟩ := h.exec
  obtain ⟨m₁, m₂, hcpu₁, hops, -, -, hwrite, hcpu, -⟩ := doPop_ok hpop
  have hm₁ : m₁.type .src = .reg ∧ m₁.loc .src = regNo rESP := by
    rw [← htype, ← hloc, Machine.type, Machine.loc, Machine.operand, hops]
    exact ⟨rfl, rfl⟩
  rcases writeOperand_mem hwrite with ⟨i, -, hi, hcpu₂, -⟩ | ⟨hm, -⟩
  · obtain rfl : i = rESP := by
      have heq := congrArg bits02 (hi.symm.trans hm₁.2)
      rwa [bits02_regNo, bits02_regNo] at heq
    have hpopped : d.trunc (m₂.reg .l rESP) = d.trunc (popped d decoded) := calc
      d.trunc (m₂.reg .l rESP) = m₂.cpu.reg d rESP := (m₂.cpu.reg_eq_trunc hd rESP).symm
      _ = (m₁.cpu.setReg d rESP (popped d decoded)).reg d rESP := by rw [hcpu₂]
      _ = d.trunc (popped d decoded) := CpuState.reg_setReg ..
    have hnew : m'.reg d rESP = d.trunc (m₂.reg .l rESP + d.len) := calc
      m'.reg d rESP = d.trunc (m'.cpu.reg .l rESP) := m'.cpu.reg_eq_trunc hd rESP
      _ = d.trunc ((m₂.setReg .l rESP (m₂.reg .l rESP + d.len)).reg .l rESP) := by rw [hcpu]; rfl
      _ = d.trunc (m₂.reg .l rESP + d.len) := by rw [reg_setReg_l]
    intro heq
    have hsame : d.trunc (m₂.reg .l rESP + d.len) = d.trunc (m₂.reg .l rESP) := by
      rw [hpopped, ← heq, hnew, Width.trunc_trunc]
    have hnat := congrArg BitVec.toNat hsame
    rw [Width.toNat_trunc, Width.toNat_trunc, BitVec.toNat_add] at hnat
    cases d with
    | b => exact absurd rfl hd
    | w =>
      have hlen : (Width.len .w).toNat = 2 := rfl
      have hbits : 2 ^ Width.bits .w = 65536 := rfl
      rw [hlen, hbits] at hnat
      omega
    | l =>
      have hlen : (Width.len .l).toNat = 4 := rfl
      have hbits : 2 ^ Width.bits .l = 4294967296 := rfl
      rw [hlen, hbits] at hnat
      omega
  · rw [hm₁.1] at hm
    cases hm

/-- **One pop**, to another destination. -/
theorem PopStep.ok {decoded : Machine P} {n : ℕ} (hd : d ≠ .b) (hflat : m.cpu.Flat)
    (h : PopStep d decoded m m') (hn : d.bytes ≤ n) (hoff : Off d decoded (m.reg .l rESP) n) :
    m'.reg .l rESP = m.reg .l rESP + d.len ∧ m'.cpu.Flat ∧
    Delivered d (peek m.mem (m.reg .l rESP) d.bytes) decoded m' ∧
    ∀ x, In (m.reg .l rESP) n x → ¬ In (m.reg .l rESP) d.bytes x → m'.mem x = m.mem x := by
  obtain ⟨hcpu, hmem, hsize, hpop⟩ := h.exec
  obtain ⟨m₁, m₂, hcpu₁, hops, hmem₁, hsreg, hwrite, hcpu', hmem'⟩ := doPop_ok hpop
  have htype₁ : m₁.type .src = decoded.type .src := by rw [Machine.type, Machine.operand, hops]; rfl
  have hop₁ : m₁.operand .src = decoded.operand .src := by rw [Machine.operand, hops]; rfl
  have hloc₁ : m₁.loc .src = decoded.loc .src := congrArg Operand.loc hop₁
  have hs4 : (Fin.ofNat 6 (decoded.operand .src).sreg).val < 4 := by
    rw [Fin.val_ofNat]
    omega
  have hpopped : popped d decoded = peek m.mem (m.reg .l rESP) d.bytes := by
    rw [popped, hmem, hcpu, reg_of_cpu hcpu, hflat _ _ hs4]
  rw [hpopped] at hwrite
  -- the rest is the same for both destinations
  have hrest : m₂.reg .l rESP = m.reg .l rESP → m₂.cpu.Flat → m'.reg .l rESP = m.reg .l rESP + d.len ∧
      m'.cpu.Flat ∧ m'.mem = poke m₂.mem (m.reg .l rESP) d.bytes 0 := by
    intro hesp hflat₂
    rw [hesp] at hcpu' hmem'
    refine ⟨?_, fun a i hi => ?_, ?_⟩
    · rw [Machine.reg, hcpu']
      exact reg_setReg_l m₂ rESP _
    · rw [hcpu', CpuState.linear_setReg, hflat₂ a i hi]
    · rw [hmem', hflat₂ _ _ (by decide)]
  unfold Off at hoff
  rcases writeOperand_mem hwrite with ⟨i, htype, hloc, hcpu₂, hmem₂⟩ | ⟨htype, hcpu₂, hmem₂⟩
  · rw [htype₁] at htype
    rw [hloc₁] at hloc
    rw [if_pos htype, hloc] at hoff
    have hne : rESP ≠ i := fun he => hoff (by rw [he])
    have hc₂ : m₂.cpu = m.cpu.setReg d i (peek m.mem (m.reg .l rESP) d.bytes) := by
      rw [hcpu₂, hcpu₁, hcpu]
    obtain ⟨hesp', hflat', hmem''⟩ := hrest
      (by rw [Machine.reg, hc₂]; exact m.cpu.reg_l_setReg_ne hd hne _)
      (fun a s hs => by rw [hc₂, CpuState.linear_setReg, hflat a s hs])
    refine ⟨hesp', hflat', .reg i htype hloc ?_, fun x _ hx => ?_⟩
    · calc
        m'.reg d i = (m₂.cpu.setReg .l rESP (m₂.reg .l rESP + d.len)).reg d i := by rw [← hcpu']; rfl
        _ = m₂.cpu.reg d i := by
          rw [CpuState.reg_eq_trunc _ hd, CpuState.reg_l_setReg_ne _ (by decide) hne.symm,
            ← CpuState.reg_eq_trunc _ hd]
        _ = d.trunc (peek m.mem (m.reg .l rESP) d.bytes) := by rw [hc₂, CpuState.reg_setReg]
        _ = peek m.mem (m.reg .l rESP) d.bytes := trunc_peek ..
    · rw [hmem'', poke_out hx, hmem₂, hmem₁, hmem]
  · rw [htype₁] at htype
    have hreg : ¬ decoded.type .src = .reg := by rw [htype]; decide
    rw [if_neg hreg, hcpu, hflat _ _ hs4] at hoff
    have hc₂ : m₂.cpu = m.cpu := by rw [hcpu₂, hcpu₁, hcpu]
    obtain ⟨hesp', hflat', hmem''⟩ := hrest (reg_of_cpu hc₂ ..) (by rw [hc₂]; exact hflat)
    rw [hop₁, hloc₁, hcpu₁, hcpu, hflat _ _ hs4, hsize htype, trunc_peek, hmem₁, hmem] at hmem₂
    have h4 : d.bytes ≤ 4 := by cases d <;> decide
    have hslot : Apart (decoded.loc .src) d.bytes (m.reg .l rESP) d.bytes := fun x hx hx' =>
      hoff x hx (lt_of_lt_of_le hx' hn)
    refine ⟨hesp', hflat', .mem htype ?_, fun x hn' hx => ?_⟩
    · rw [hflat' _ _ hs4, hmem'', peek_poke_apart h4 hslot.symm, hmem₂, peek_poke_self _ _ _ h4,
        word_byte_trunc, trunc_peek]
    · rw [hmem'', poke_out hx, hmem₂, poke_out fun hin => hoff x hin hn']

end Steps

/-! ### Sequences -/

section Runs

variable {P : Type} [Bus P] [Ram P] {d : Width} {m m₁ m₂ m' : Machine P} {vs : List Word}

/-- The next instruction: `eip` and the operand records may be others. -/
def Resumed (m m' : Machine P) : Prop := m'.cpu = { m.cpu with eip := m'.eip } ∧ m'.mem = m.mem

/-- Pushes of these values, the last one first. -/
inductive PushRun (d : Width) : List Word → Machine P → Machine P → Prop
  | nil (m : Machine P) : PushRun d [] m m
  | push {vs : List Word} {v : Word} {m m₁ m₂ m' : Machine P} (h : PushRun d vs m m₁)
      (hnext : Resumed m₁ m₂) (hpush : PushStep d v m₂ m') : PushRun d (v :: vs) m m'

/-- The execution of a `pop`. -/
structure PopExec (P : Type) where
  before : Machine P
  decoded : Machine P
  after : Machine P

/-- Pops, each to another register or to memory apart from what is still to be
popped. -/
inductive PopRun (d : Width) : List (PopExec P) → Machine P → Machine P → Prop
  | nil (m : Machine P) : PopRun d [] m m
  | pop {es : List (PopExec P)} {e : PopExec P} {m m' : Machine P} (hnext : Resumed m e.before)
      (hpop : PopStep d e.decoded e.before e.after)
      (hoff : Off d e.decoded (e.before.reg .l rESP) (d.bytes * (es.length + 1)))
      (h : PopRun d es e.after m') : PopRun d (e :: es) m m'

theorem Resumed.kept (h : Resumed m m') (hflat : m.cpu.Flat) :
    m'.cpu.Flat ∧ m'.reg .l rESP = m.reg .l rESP := by
  refine ⟨fun a i hi => ?_, ?_⟩
  · rw [h.1]
    exact hflat a i hi
  · rw [Machine.reg, h.1]
    rfl

/-- **Pushes** leave their values on the stack. -/
theorem PushRun.stack (h : PushRun .l vs m m') (hflat : m.cpu.Flat) (hlen : 4 * vs.length ≤ 2 ^ 32) :
    m'.cpu.Flat ∧ m'.reg .l rESP = m.reg .l rESP - BitVec.ofNat 32 (4 * vs.length) ∧
      StackIs m'.mem (m'.reg .l rESP) vs := by
  induction h with
  | nil m => exact ⟨hflat, (BitVec.sub_zero _).symm, trivial⟩
  | @push vs v m m₁ m₂ m' h hnext hpush ih =>
    rw [List.length_cons] at hlen
    obtain ⟨hflat₁, hesp₁, hstack⟩ := ih hflat (by omega)
    obtain ⟨hflat₂, hesp₂⟩ := hnext.kept hflat₁
    obtain ⟨hcpu, hmem⟩ := hpush.ok (by decide)
    have hesp : m'.reg .l rESP = m₁.reg .l rESP - 4 := by
      rw [Machine.reg, hcpu, ← hesp₂]
      exact reg_setReg_l m₂ rESP _
    refine ⟨fun a i hi => ?_, ?_, ?_⟩
    · rw [hcpu, CpuState.linear_setReg]
      exact hflat₂ a i hi
    · rw [hesp, hesp₁, List.length_cons]
      bv_omega
    · rw [hmem, hflat₂ _ _ (by decide), hnext.2, hesp, hesp₂]
      exact hstack.push hlen

/-- **Pops** deliver what is on the stack. -/
theorem PopRun.delivers {es : List (PopExec P)} (h : PopRun .l es m m') (hflat : m.cpu.Flat)
    (hlen : 4 * vs.length ≤ 2 ^ 32) (hvs : es.length = vs.length)
    (hstack : StackIs m.mem (m.reg .l rESP) vs) :
    m'.reg .l rESP = m.reg .l rESP + BitVec.ofNat 32 (4 * vs.length) ∧
      (∀ e ∈ es, e.after.reg .l rESP = e.before.reg .l rESP + 4) ∧
      List.Forall₂ (fun e v => Delivered .l v e.decoded e.after) es vs := by
  induction h generalizing vs with
  | nil m =>
    obtain rfl := List.length_eq_zero_iff.mp hvs.symm
    exact ⟨(BitVec.add_zero _).symm, fun _ he => (List.not_mem_nil he).elim, .nil⟩
  | @pop es e m m' hnext hpop hoff h ih =>
    cases vs with
    | nil => exact absurd hvs (Nat.succ_ne_zero _)
    | cons v vs =>
      rw [List.length_cons] at hlen
      have hvs : es.length = vs.length := Nat.succ.inj hvs
      obtain ⟨hflat₁, hesp₁⟩ := hnext.kept hflat
      obtain ⟨hesp, hflat', hval, hrest⟩ := hpop.ok (by decide) hflat₁
        (show 4 ≤ 4 * (es.length + 1) by omega) hoff
      rw [hesp₁, hnext.2] at hval hrest
      have hlen4 : Width.len .l = 4 := rfl
      rw [hesp₁, hlen4] at hesp
      have hnew : StackIs e.after.mem (e.after.reg .l rESP) vs := by
        rw [hesp]
        refine hstack.2.congr (by omega) fun x hx => (hrest x ?_ ?_).symm
        · unfold In at hx ⊢
          rw [hvs]
          bv_omega
        · unfold In at hx ⊢
          change ¬ (x - m.reg .l rESP).toNat < 4
          bv_omega
      obtain ⟨hend, hmoves, hdelivered⟩ := ih hflat' (by omega) hvs hnew
      refine ⟨?_, ?_, .cons (hstack.1 ▸ hval) hdelivered⟩
      · rw [hend, hesp, List.length_cons]
        bv_omega
      · intro e' he'
        rcases List.mem_cons.mp he' with rfl | he'
        · rw [hesp, hesp₁]
        · exact hmoves e' he'

/-- **The stack discipline.** A `push` lowers `esp` by the operand size only if that
is 32 bits, and `pop esp` never leaves what it popped. With 32-bit operands, pushes
and as many pops to other destinations deliver the pushed values in reverse order,
and end where they began. -/
theorem push_pop (hd : d ≠ .b) :
    (∀ (v : Word) (m m' : Machine P), PushStep d v m m' →
      (m'.reg .l rESP = m.reg .l rESP - d.len ↔ d = .l)) ∧
    (∀ decoded m m' : Machine P, PopStep d decoded m m' → decoded.type .src = .reg →
      decoded.loc .src = regNo rESP → m'.reg d rESP ≠ popped d decoded) ∧
    (d = .l → ∀ (vs : List Word) (es : List (PopExec P)) (m m₁ m₂ m' : Machine P), m.cpu.Flat →
      4 * vs.length ≤ 2 ^ 32 → PushRun d vs m m₁ → Resumed m₁ m₂ → es.length = vs.length →
      PopRun d es m₂ m' → List.Forall₂ (fun e v => Delivered d v e.decoded e.after) es vs ∧
        (∀ e ∈ es, e.after.reg .l rESP = e.before.reg .l rESP + d.len) ∧
        m'.reg .l rESP = m.reg .l rESP) := by
  refine ⟨fun v m m' h => ?_, fun decoded m m' h => h.esp hd, ?_⟩
  · obtain ⟨hcpu, -⟩ := h.ok hd
    have hesp : m'.reg .l rESP = m.reg .l rESP - 4 := by
      rw [Machine.reg, hcpu]
      exact reg_setReg_l m rESP _
    rw [hesp]
    cases d with
    | b => exact absurd rfl hd
    | w =>
      refine iff_of_false (fun h => ?_) (by decide)
      have hlen : Width.len .w = 2 := rfl
      rw [hlen] at h
      bv_omega
    | l => exact iff_of_true rfl rfl
  · rintro rfl vs es m m₁ m₂ m' hflat hlen hpush hnext hvs hpop
    obtain ⟨hflat₁, hesp₁, hstack⟩ := hpush.stack hflat hlen
    obtain ⟨hflat₂, hesp₂⟩ := hnext.kept hflat₁
    rw [← hnext.2, ← hesp₂] at hstack
    obtain ⟨hend, hmoves, hdelivered⟩ := hpop.delivers hflat₂ hlen hvs hstack
    refine ⟨hdelivered, hmoves, ?_⟩
    rw [hend, hesp₂, hesp₁, BitVec.sub_add_cancel]

end Runs

/-- `push %eax`, with 0x100 in all registers. -/
def pushStart : Machine FlatBus := (flatMachine (fun _ => 0x100) []).setOpcode 0x50

/-- `push %eax`, where register `k` has 0x100 + `k`. -/
def pushEax : Machine FlatBus := (flatMachine (fun k => 0x100 + BitVec.ofNat 32 k) []).setOpcode 0x50

/-- After it, `push %ecx`. -/
def pushEcx : Machine FlatBus := (stateD pushEax (PushForm.r.helper .l 0 pushEax)).setOpcode 0x51

/-- The `pop` to a register, executed. -/
def popExec (m : Machine FlatBus) : PopExec FlatBus :=
  ⟨m, stateD m (PopForm.r.decode .l 1 m), stateD m (PopForm.r.helper .l 0 m)⟩

/-- After the pushes, `pop %edx`, -/
def popEdx : PopExec FlatBus := popExec ((stateD pushEcx (PushForm.r.helper .l 0 pushEcx)).setOpcode 0x5a)

/-- and `pop %ebx`. -/
def popEbx : PopExec FlatBus := popExec (popEdx.after.setOpcode 0x5b)

/-- What was pushed last goes to `edx`, and what was pushed first to `ebx`. -/
theorem push_pop_edx : List.Forall₂ (fun e v => Delivered .l v e.decoded e.after) [popEdx, popEbx] [0x101, 0x100] ∧
    (∀ e ∈ [popEdx, popEbx], e.after.reg .l rESP = e.before.reg .l rESP + 4) ∧
    popEbx.after.reg .l rESP = 0x104 := by
  have hpush : ∀ m ∈ [(pushEax, (0x100 : Word)), (pushEcx, 0x101)], PushStep .l m.2 m.1 (stateD m.1 (PushForm.r.helper .l 0 m.1)) := by
    simp only [List.forall_mem_cons, List.not_mem_nil, IsEmpty.forall_iff, implies_true, and_true]
    exact ⟨⟨.r, 0, 0, _, ok_stateD (by decide +kernel) pushEax, ok_stateD (by decide +kernel) pushEax, by decide +kernel⟩,
      ⟨.r, 0, 0, _, ok_stateD (by decide +kernel) pushEcx, ok_stateD (by decide +kernel) pushEcx, by decide +kernel⟩⟩
  have hpop : ∀ e ∈ [popEdx, popEbx], PopStep .l e.decoded e.before e.after := by
    simp only [List.forall_mem_cons, List.not_mem_nil, IsEmpty.forall_iff, implies_true, and_true]
    exact ⟨⟨.r, 0, 0, ok_stateD (by decide +kernel) popEdx.before, ok_stateD (by decide +kernel) popEdx.before⟩,
      ⟨.r, 0, 0, ok_stateD (by decide +kernel) popEbx.before, ok_stateD (by decide +kernel) popEbx.before⟩⟩
  have hoff : ∀ e ∈ [popEdx, popEbx], ∀ n, Off .l e.decoded (e.before.reg .l rESP) n := by
    have hreg : ∀ e ∈ [popEdx, popEbx], e.decoded.type .src = .reg ∧ e.decoded.loc .src ≠ regNo rESP := by
      decide +kernel
    intro e he n
    unfold Off
    rw [if_pos (hreg e he).1]
    exact (hreg e he).2
  simp only [List.forall_mem_cons] at hpush hpop hoff
  have hnext : ∀ (m : Machine FlatBus) (opcode : ℕ), Resumed m (m.setOpcode opcode) := fun _ _ => ⟨rfl, rfl⟩
  have hpushes : PushRun .l [0x101, 0x100] pushEax (stateD pushEcx (PushForm.r.helper .l 0 pushEcx)) :=
    .push (.push (.nil pushEax) ⟨rfl, rfl⟩ hpush.1) (hnext _ 0x51) hpush.2.1
  have hpops : PopRun .l [popEdx, popEbx] popEdx.before popEbx.after :=
    .pop ⟨rfl, rfl⟩ hpop.1 (hoff.1 _) (.pop (hnext _ 0x5b) hpop.2.1 (hoff.2.1 _) (.nil _))
  exact (push_pop (d := .l) (by decide)).2.2 rfl [0x101, 0x100] [popEdx, popEbx] pushEax _ popEdx.before popEbx.after
    (fun _ _ _ => rfl) (by decide) hpushes (hnext _ 0x5a) rfl hpops

/-- `push %ax` lowers `esp` by 4. -/
theorem push_ax_wrong : ∃ m', PushStep .w 0x100 pushStart m' ∧
    m'.reg .l rESP = 0xfc ∧ m'.reg .l rESP ≠ pushStart.reg .l rESP - 2 :=
  ⟨_, ⟨.r, 0, 0, _, ok_stateD (by decide +kernel) pushStart, ok_stateD (by decide +kernel) pushStart,
    by decide +kernel⟩, by decide +kernel, by decide +kernel⟩

end Nemu
