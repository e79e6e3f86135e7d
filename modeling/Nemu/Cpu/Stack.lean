/-
# The stack

`push` always moves 4 bytes, `pop` as many as the operand size, and a `pop` ends
by writing zeroes over what it popped. So do `ret imm16` over the arguments that
it releases; the others that read the stack write nothing.

Key definitions: `Released`, `Released.Dest`, `Released.Zeroed`.
Key theorems: `doPush_ok`, `doPop_ok`, `released_iff`.
-/
import Nemu.Cpu.Ram

namespace Nemu

open Bytes Cmd Instr WordMem

set_option synthInstance.maxSize 10000

section Stack

variable {P : Type} [Bus P] [Ram P] {d : Width} {m m' : Machine P}

/-! ### Operands -/

/-- What `write_operand` leaves of the registers and of memory. -/
theorem writeOperand_mem {k : Slot} {v : Word} (h : writeOperand d k v m = .ok () m') :
    (∃ i, m.type k = .reg ∧ m.loc k = regNo i ∧ m'.cpu = m.cpu.setReg d i v ∧ m'.mem = m.mem) ∨
      m.type k = .mem ∧ m'.cpu = m.cpu ∧
        m'.mem = poke m.mem (m.cpu.linear (m.loc k) (Fin.ofNat 6 (m.operand k).sreg))
          (m.operand k).size (d.trunc v) := by
  rcases writeOperand_ok h with ⟨i, htype, hloc, rfl⟩ | ⟨htype, hwrite⟩
  · exact .inl ⟨i, htype, hloc, rfl, m.mem_setReg d i v⟩
  · obtain ⟨hcpu, -, -, hmem⟩ := swaddrWrite_mem hwrite
    exact .inr ⟨htype, hcpu, hmem⟩

/-- `push` lowers `esp` by 4 and stores 4 bytes. -/
theorem doPush_ok (h : doPush d m = .ok () m') :
    m'.cpu = m.cpu.setReg .l rESP (m.reg .l rESP - 4) ∧
      m'.mem = poke m.mem (m.cpu.linear (m.reg .l rESP - 4) 2) 4
        (if d = .b then Width.sext .b (m.val .src) else m.val .src) := by
  unfold doPush at h
  rw [read_bind_run, write_bind_run, read_bind_run, write_bind_run] at h
  obtain ⟨hcpu, -, -, hmem⟩ := swaddrWrite_mem h
  exact ⟨hcpu, hmem⟩

/-- The value that `pop` reads. -/
def popped (d : Width) (m : Machine P) : Word :=
  peek m.mem (m.cpu.linear (m.reg .l rESP) (Fin.ofNat 6 (m.operand .src).sreg)) d.bytes

/-- `pop` writes the operand, and then zeroes at the new top of the stack. -/
theorem doPop_ok (h : doPop d m = .ok () m') : ∃ (m₁ m₂ : Machine P), m₁.cpu = m.cpu ∧
    m₁.ops = m.ops ∧ m₁.mem = m.mem ∧ (m.operand .src).sreg < 4 ∧
    writeOperand d .src (popped d m) m₁ = .ok () m₂ ∧
    m'.cpu = m₂.cpu.setReg .l rESP (m₂.reg .l rESP + d.len) ∧
    m'.mem = poke m₂.mem (m₂.cpu.linear (m₂.reg .l rESP) 2) d.bytes 0 := by
  unfold doPop at h
  rw [read_bind_run, read_bind_run] at h
  obtain ⟨v, m₁, hread, h⟩ := bind_eq_ok h
  obtain ⟨hcpu, hops, hmem, hsreg, rfl⟩ := swaddrRead_mem hread
  obtain ⟨_, m₂, hwrite, h⟩ := bind_eq_ok h
  rw [read_bind_run] at h
  obtain ⟨_, m₃, hzero, h⟩ := bind_eq_ok h
  obtain ⟨hcpu₃, -, -, hmem₃⟩ := swaddrWrite_mem hzero
  injection h with _ h
  subst h
  refine ⟨m₁, m₂, hcpu, hops, hmem, hsreg, hwrite, ?_, hmem₃⟩
  rw [← hcpu₃]
  rfl

/-- The zeroes of `ret imm16`. -/
theorem upto_zero {c : CpuState} {a : Word} : ∀ {n : ℕ} {m m' : Machine P}, m.cpu = c →
    upto (fun i => swaddrWrite (a + BitVec.ofNat 32 (i * d.bytes)) d.bytes 0 1) n m = .ok () m' →
    m'.cpu = c ∧ Cleared (fun x => ∃ i < n, In (c.linear (a + BitVec.ofNat 32 (i * d.bytes)) 1) d.bytes x)
      m.mem m'.mem
  | 0, m, m', hc, h => by
    injection h with _ h
    subst h
    exact ⟨hc, fun x => ⟨fun hx => by simp at hx, fun _ => rfl⟩⟩
  | n + 1, m, m', hc, h => by
    obtain ⟨_, m₁, hloop, h⟩ := bind_eq_ok h
    obtain ⟨hcpu, hclear⟩ := upto_zero hc hloop
    obtain ⟨hcpu', -, -, hmem⟩ := swaddrWrite_mem h
    refine ⟨hcpu'.trans hcpu, ?_⟩
    have hzero : Cleared (In (c.linear (a + BitVec.ofNat 32 (n * d.bytes)) 1) d.bytes) m₁.mem m'.mem := by
      rw [hmem, hcpu]
      exact cleared_poke m₁.mem _ _
    refine (hclear.trans hzero).congr fun x => ⟨?_, ?_⟩
    · rintro (⟨i, hi, hx⟩ | hx)
      · exact ⟨i, by omega, hx⟩
      · exact ⟨n, by omega, hx⟩
    · rintro ⟨i, hi, hx⟩
      rcases Nat.lt_succ_iff_lt_or_eq.mp hi with hi | rfl
      · exact .inl ⟨i, hi, hx⟩
      · exact .inr hx

/-! ### What releases a part of the stack -/

/-- The instructions that read the stack. -/
inductive Released where
  | popR | popRm | ret | retI | leave | popa | iret
  deriving DecidableEq

namespace Released

def helper (d : Width) : Released → Helper P
  | popR => opR doPop d
  | popRm => opRm doPop d
  | ret => retO d
  | retI => Instr.retI d
  | leave => Instr.leave
  | popa => Instr.popa d
  | iret => Instr.iret

set_option maxRecDepth 20000 in
omit [Ram P] in
/-- Their opcodes. -/
theorem released_tables (exec : Helper P) (fuel : ℕ) :
    (∀ k < 8, entry (opcodeTable exec fuel) (0x58 + k) = helperV (popR.helper ·)) ∧
    entry (opcodeTable exec fuel) 0x8f = helperV (popRm.helper ·) ∧
    entry (opcodeTable exec fuel) 0xc3 = helperV (ret.helper ·) ∧
    entry (opcodeTable exec fuel) 0xcb = helperV (ret.helper ·) ∧
    entry (opcodeTable exec fuel) 0xc2 = helperV (retI.helper ·) ∧
    entry (opcodeTable exec fuel) 0xc9 = leave.helper .l ∧
    entry (opcodeTable exec fuel) 0x61 = helperV (popa.helper ·) ∧
    entry (opcodeTable exec fuel) 0xcf = iret.helper .l := by
  refine ⟨fun k hk => ?_, rfl, rfl, rfl, rfl, rfl, rfl, rfl⟩
  interval_cases k <;> rfl

/-- The explicit destination in memory: that of `pop r/m`. -/
def Dest (d : Width) (eip : Word) (m : Machine P) (op : Released) (x : Word) : Prop :=
  op = popRm ∧ ∃ len m₁, decodeRm d (eip + 1) m = .ok len m₁ ∧ m₁.type .src = .mem ∧
    In (m.cpu.linear (m₁.loc .src) (Fin.ofNat 6 (m₁.operand .src).sreg)) (m₁.operand .src).size x

/-- The top of the stack when `pop` has written its operand. -/
def top (d : Width) (m : Machine P) : Word :=
  if m.type .src = .reg then (m.setReg d (bits02 (m.loc .src)) (popped d m)).reg .l rESP
  else m.reg .l rESP

/-- What is overwritten with zeroes: what `pop` has popped, and the arguments that
`ret imm16` releases, up to a whole number of operands. -/
def Zeroed (d : Width) (eip : Word) (m : Machine P) (op : Released) (x : Word) : Prop :=
  match op with
  | popR => ∃ len m₁, decodeR d (eip + 1) m = .ok len m₁ ∧
      In (m.cpu.linear (top d m₁) 2) d.bytes x
  | popRm => ∃ len m₁, decodeRm d (eip + 1) m = .ok len m₁ ∧
      In (m.cpu.linear (top d m₁) 2) d.bytes x
  | retI => ∃ val m₁, instrFetch (eip + 1) 2 m = .ok val m₁ ∧
      ∃ i < (val.toNat + d.bytes - 1) / d.bytes,
        In (m.cpu.linear (d.trunc (m.reg d rESP + d.len) + BitVec.ofNat 32 (i * d.bytes)) 1) d.bytes x
  | ret | leave | popa | iret => False

end Released

/-- `pop` clears the top of the stack, and changes nothing else but its operand. -/
theorem doPop_cleared (h : doPop d m = .ok () m') : ∃ f : Mem,
    (∀ x, ¬ (m.type .src = .mem ∧ In (m.cpu.linear (m.loc .src) (Fin.ofNat 6 (m.operand .src).sreg))
      (m.operand .src).size x) → f x = m.mem x) ∧
    Cleared (In (m.cpu.linear (Released.top d m) 2) d.bytes) f m'.mem := by
  obtain ⟨m₁, m₂, hcpu₁, hops, hmem₁, -, hwrite, -, hmem⟩ := doPop_ok h
  have htype : ∀ k, m₁.type k = m.type k := fun k => by rw [Machine.type, Machine.operand, hops]; rfl
  have hloc : ∀ k, m₁.loc k = m.loc k := fun k => by rw [Machine.loc, Machine.operand, hops]; rfl
  have hop : m₁.operand .src = m.operand .src := by rw [Machine.operand, hops]; rfl
  refine ⟨m₂.mem, ?_⟩
  rw [hmem]
  unfold Released.top
  rcases writeOperand_mem hwrite with ⟨i, hreg, hi, hcpu₂, hmem₂⟩ | ⟨hm, hcpu₂, hmem₂⟩
  · rw [htype] at hreg
    rw [hloc] at hi
    have hreg' : m₂.reg .l rESP = (m.setReg d i (popped d m)).reg .l rESP := by
      rw [Machine.reg, hcpu₂, hcpu₁]
      rfl
    have hlin : ∀ a, m₂.cpu.linear a 2 = m.cpu.linear a 2 := by
      intro a
      rw [hcpu₂, hcpu₁]
      cases d <;> rfl
    rw [if_pos hreg, hlin, hreg', hi, bits02_regNo]
    exact ⟨fun x _ => by rw [hmem₂, hmem₁], cleared_poke m₂.mem _ _⟩
  · rw [htype] at hm
    have hne : ¬ m.type .src = .reg := by rw [hm]; decide
    have hcpu : m₂.cpu = m.cpu := hcpu₂.trans hcpu₁
    rw [if_neg hne, hcpu, reg_of_cpu hcpu]
    refine ⟨fun x hx => ?_, cleared_poke m₂.mem _ _⟩
    rw [hmem₂, hmem₁, hcpu₁, hloc, hop]
    exact poke_out fun hin => hx ⟨hm, hin⟩

/-- `ret imm16` clears the arguments. -/
theorem retI_cleared {eip n val : Word} {m₁ : Machine P} (hval : instrFetch (eip + 1) 2 m = .ok val m₁)
    (h : Instr.retI d eip m = .ok n m') :
    Cleared (fun x => ∃ i < (val.toNat + d.bytes - 1) / d.bytes,
        In (m.cpu.linear (d.trunc (m.reg d rESP + d.len) + BitVec.ofNat 32 (i * d.bytes)) 1) d.bytes x)
      m.mem m'.mem := by
  unfold Instr.retI at h
  rw [bind_ok hval, read_bind_run] at h
  obtain ⟨hcpu₁, -, hmem₁, -, hv⟩ := swaddrRead_mem hval
  obtain ⟨v, m₂, hread, h⟩ := bind_eq_ok h
  obtain ⟨hcpu₂, -, hmem₂, -, -⟩ := swaddrRead_mem hread
  rw [write_bind_run, write_bind_run, read_bind_run] at h
  obtain ⟨_, m₃, hloop, h⟩ := bind_eq_ok h
  injection h with _ h
  subst h
  have hesp : ∀ e, ((m₂.setEip e).setReg d rESP (m₁.reg d rESP + d.len)).reg d rESP =
      d.trunc (m.reg d rESP + d.len) := by
    intro e
    rw [← reg_of_cpu hcpu₁]
    exact CpuState.reg_setReg _ d rESP _
  have hlin : ∀ e a, ((m₂.setEip e).setReg d rESP (m₁.reg d rESP + d.len)).cpu.linear a 1 =
      m.cpu.linear a 1 := by
    intro e a
    rw [← hcpu₁, ← hcpu₂]
    cases d <;> rfl
  have hmem : ∀ e, ((m₂.setEip e).setReg d rESP (m₁.reg d rESP + d.len)).mem = m.mem := by
    intro e
    rw [Machine.mem_setReg, ← hmem₁, ← hmem₂]
    rfl
  -- the immediate has 16 bits, so it is not negative
  have hint : val.toInt.toNat = val.toNat := by
    have hlt := (swaddrRead_ends (eip + 1) 2 1 m)
    rw [show swaddrRead (eip + 1) 2 1 m = .ok val m₁ from hval] at hlt
    have hbound : val.toNat < 2 ^ 16 := hlt.2
    rw [BitVec.toInt_eq_toNat_of_lt (by omega)]
    omega
  rw [hesp, hint] at hloop
  have hclear := (upto_zero rfl hloop).2
  rw [hmem] at hclear
  rw [Machine.mem_setReg]
  exact hclear.congr fun x => by simp only [hlin]

omit [Bus P] [Ram P] in
theorem decodeR_type {eip len : Word} {m₁ : Machine P} (h : decodeR d eip m = .ok len m₁) :
    m₁.type .src = .reg := by
  unfold decodeR decodeRInternal setRegOperand at h
  injection h with _ h
  subst h
  rfl

/-- After the operand is decoded, `pop` changes memory only where it clears it. -/
theorem pop_frame_iff {decode : Helper P} {eip len : Word} {m₁ : Machine P} {S D : Word → Prop}
    [Keeps (OnCpu (· = m.cpu)) (decode eip)] [Keeps (MemIs m.mem) (decode eip)]
    (hdec : decode eip m = .ok len m₁) (hpop : doPop d m₁ = .ok () m')
    (hS : ∀ x, S x ↔ In (m.cpu.linear (Released.top d m₁) 2) d.bytes x)
    (hD : ∀ x, D x ↔ m₁.type .src = .mem ∧
      In (m.cpu.linear (m₁.loc .src) (Fin.ofNat 6 (m₁.operand .src).sreg)) (m₁.operand .src).size x) :
    (∀ x, ¬ D x → m'.mem x = m.mem x) ↔ ∀ x, S x → ¬ D x → m.mem x = 0 := by
  have hcpu : m₁.cpu = m.cpu := cpu_of_keeps hdec
  have hmem : m₁.mem = m.mem := mem_of_keeps hdec
  obtain ⟨f, hf, hclear⟩ := doPop_cleared hpop
  rw [hcpu] at hf hclear
  rw [hmem] at hf
  refine (hclear.congr fun x => (hS x).symm).frame_iff fun x hx => hf x fun hd => hx ((hD x).mpr hd)

/-- **Reading the stack.** Memory is as before, outside the explicit destination,
if and only if what is overwritten with zeroes was zero already. -/
theorem released_iff {op : Released} {eip n : Word} (h : op.helper d eip m = .ok n m') :
    (∀ x, ¬ op.Dest d eip m x → m'.mem x = m.mem x) ↔
      ∀ x, op.Zeroed d eip m x → ¬ op.Dest d eip m x → m.mem x = 0 := by
  have hsame : m'.mem = m.mem → (∀ x, ¬ op.Zeroed d eip m x) →
      ((∀ x, ¬ op.Dest d eip m x → m'.mem x = m.mem x) ↔
        ∀ x, op.Zeroed d eip m x → ¬ op.Dest d eip m x → m.mem x = 0) := fun hm hz =>
    iff_of_true (fun x _ => by rw [hm]) fun x hx => absurd hx (hz x)
  cases op with
  | popR =>
    obtain ⟨len, m₁, hdec, h⟩ := bind_eq_ok h
    obtain ⟨_, m₂, hpop, h⟩ := bind_eq_ok h
    injection h with _ h
    subst h
    refine pop_frame_iff hdec hpop (fun x => ⟨?_, fun hx => ⟨len, m₁, hdec, hx⟩⟩) fun x => ?_
    · rintro ⟨len', m₁', hdec', hx⟩
      rw [hdec] at hdec'
      injection hdec' with _ hm
      exact hm ▸ hx
    · refine iff_of_false (fun hd => nomatch hd.1) fun hd => ?_
      rw [decodeR_type hdec] at hd
      exact nomatch hd.1
  | popRm =>
    obtain ⟨len, m₁, hdec, h⟩ := bind_eq_ok h
    obtain ⟨_, m₂, hpop, h⟩ := bind_eq_ok h
    injection h with _ h
    subst h
    refine pop_frame_iff hdec hpop (fun x => ⟨?_, fun hx => ⟨len, m₁, hdec, hx⟩⟩) fun x =>
      ⟨?_, fun hx => ⟨rfl, len, m₁, hdec, hx⟩⟩
    · rintro ⟨len', m₁', hdec', hx⟩
      rw [hdec] at hdec'
      injection hdec' with _ hm
      exact hm ▸ hx
    · rintro ⟨-, len', m₁', hdec', hx⟩
      rw [hdec] at hdec'
      injection hdec' with _ hm
      exact hm ▸ hx
  | retI =>
    obtain ⟨val, m₁, hval, -⟩ := bind_eq_ok h
    refine ((retI_cleared hval h).congr fun x => ⟨fun hx => ⟨val, m₁, hval, hx⟩, ?_⟩).frame_iff
      fun x _ => rfl
    rintro ⟨val', m₁', hval', hx⟩
    rw [hval] at hval'
    injection hval' with hv hm
    exact hv ▸ hx
  | ret => exact hsame (mem_of_keeps (show retO d eip m = .ok n m' from h)) fun _ hx => hx
  | leave => exact hsame (mem_of_keeps (show Instr.leave eip m = .ok n m' from h)) fun _ hx => hx
  | popa => exact hsame (mem_of_keeps (show Instr.popa d eip m = .ok n m' from h)) fun _ hx => hx
  | iret => exact hsame (mem_of_keeps (show Instr.iret eip m = .ok n m' from h)) fun _ hx => hx

end Stack

/-- `pop %eax` at 0, with zeroes on the stack. -/
def popZero : Machine FlatBus := flatMachine (fun _ => 0x100) [0x58]

theorem released_iff_zero : ∃ m', Released.popR.helper .l 0 popZero = .ok 1 m' ∧
    ∀ x, m'.mem x = popZero.mem x := by
  have hrun : Released.popR.helper .l 0 popZero = .ok 1 (stateD popZero (Released.popR.helper .l 0 popZero)) :=
    ok_stateD (by decide +kernel) popZero
  refine ⟨_, hrun, fun x => (released_iff hrun).mpr ?_ x fun hd => nomatch hd.1⟩
  rintro x ⟨len, m₁, hdec, hx⟩ -
  injection hdec with _ hm
  subst hm
  have hin : (x - 0x100).toNat < 4 := hx
  obtain ⟨i, hi⟩ : ∃ i, x.toNat = i + 1 := ⟨x.toNat - 1, by bv_omega⟩
  change [(0x58 : Byte)].getD x.toNat 0 = 0
  rw [hi]
  rfl

/-- `pop %eax` at 0, with the stack at 1: it is zeroed. -/
theorem pop_zeroes : ∃ m', Released.popR.helper .l 0 (flatMachine (fun _ => 1) [0x58, 1, 2, 3, 4]) = .ok 1 m' ∧
    (flatMachine (fun _ => 1) [0x58, 1, 2, 3, 4]).mem 1 = 1 ∧ m'.mem 1 = 0 :=
  ⟨_, ok_stateD (by decide +kernel) popZero, by decide +kernel, by decide +kernel⟩

end Nemu
