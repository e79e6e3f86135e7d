/-
# Return addresses

`cpu_exec` adds the length of an instruction to `eip` after it was executed.
`call` pushes `cpu.eip + len` for the length `len` of its operand, which is one
less than the address of the next instruction, and `ret` sets `eip` to what it
pops and returns a length of 1. So a matched pair resumes after the call, but
the address on the stack is not the return address.

Key definitions: `Logged`, `CallAt`, `RetAt`.
Key theorems: `call_pushes`, `ret_resumes`, `call_ret_never`.
-/
import Nemu.Cpu.FlatBus
import Nemu.Cpu.Guarded
import Nemu.Cpu.Registers

namespace Nemu

open Bytes Cmd Instr

set_option synthInstance.maxSize 10000

/-! ### The last accesses -/

/-- An access to linear memory. -/
structure Access where
  addr : Word
  len : ℕ
  data : Word

/-- A bus, with its last read and its last write. -/
structure Logged (P : Type) where
  bus : P
  read : Access
  write : Access

section Logged

variable {P : Type} [Bus P]

instance : Bus (Logged P) where
  lnaddrRead cr0 cr3 addr len := fun w => (Bus.lnaddrRead cr0 cr3 addr len w.bus).map fun r =>
    (r.1, ⟨r.2, ⟨addr, len, r.1.setWidth 32⟩, w.write⟩)
  lnaddrWrite cr0 cr3 addr len data := fun w =>
    (Bus.lnaddrWrite cr0 cr3 addr len data w.bus).map fun r => ((), ⟨r.2, w.read, ⟨addr, len, data⟩⟩)
  initTLB := fun w => { w with bus := Bus.initTLB w.bus }
  pioRead addr len := fun w => (Bus.pioRead addr len w.bus).map fun r => (r.1, { w with bus := r.2 })
  pioWrite addr len data := fun w =>
    (Bus.pioWrite addr len data w.bus).map fun r => ((), { w with bus := r.2 })
  INTR := fun w => Bus.INTR w.bus
  i8259QueryIntr := fun w => Bus.i8259QueryIntr w.bus
  i8259AckIntr := fun w => (Bus.i8259AckIntr w.bus).map fun r => ((), { w with bus := r.2 })

variable {c : CpuState} {addr data v : Word} {len sreg : ℕ} {w w' : Logged P}

theorem readMem_logged (h : readMem c addr len sreg w = some (v, w')) :
    w'.read = ⟨c.linear addr (Fin.ofNat 6 sreg), len, v⟩ ∧ w'.write = w.write := by
  unfold readMem at h
  split_ifs at h with hl
  obtain ⟨r, hr, heq⟩ := Option.map_eq_some_iff.mp h
  obtain ⟨x, -, rfl⟩ := Option.map_eq_some_iff.mp hr
  obtain ⟨rfl, rfl⟩ := Prod.mk.inj heq
  exact ⟨rfl, rfl⟩

theorem writeMem_logged (h : writeMem c addr len data sreg w = some w') :
    w'.write = ⟨c.linear addr (Fin.ofNat 6 sreg), len, data⟩ ∧ w'.read = w.read := by
  unfold writeMem at h
  split_ifs at h with hl
  obtain ⟨r, hr, rfl⟩ := Option.map_eq_some_iff.mp h
  obtain ⟨x, -, rfl⟩ := Option.map_eq_some_iff.mp hr
  exact ⟨rfl, rfl⟩

/-! ### Calls -/

/-- The length of the immediate. -/
theorem decodeI_len {d : Width} {eip len : Word} {m m' : Machine P} (h : decodeI d eip m = .ok len m') :
    len = d.len := by
  unfold decodeI at h
  rw [write_bind_run] at h
  obtain ⟨v, m₁, -, h⟩ := bind_eq_ok h
  rw [write_bind_run, write_bind_run] at h
  injection h with h
  exact h.symm

/-- The push of a call: the stack pointer, and the last write. -/
theorem push_logged {v esp cur : Word} {m m₁ m₂ m' : Machine (Logged P)} (hcpu : m₁.cpu = m.cpu)
    (hesp : esp = m.reg .l rESP - 4) (hcur : cur = m₁.eip)
    (hw : swaddrWrite esp 4 (cur + v) 1 (m₁.setReg .l rESP esp) = .ok () m₂)
    (hm' : ∃ e, m' = m₂.setEip e) : m'.reg .l rESP = m.reg .l rESP - 4 ∧
      m'.bus.write = ⟨m.cpu.linear (m.reg .l rESP - 4) 1, 4, m.eip + v⟩ := by
  obtain ⟨e, rfl⟩ := hm'
  obtain ⟨heq, hmem⟩ := swaddrWrite_ok hw
  obtain ⟨hwrite, -⟩ := writeMem_logged hmem
  have heip : m₁.eip = m.eip := congrArg CpuState.eip hcpu
  have hreg : (m₂.setEip e).reg .l rESP = esp := by
    rw [heq]
    exact reg_setReg_l m₁ rESP esp
  have hlinear : (m₁.setReg .l rESP esp).cpu.linear esp (Fin.ofNat 6 1) = m.cpu.linear esp 1 := by
    rw [← hcpu]
    rfl
  refine ⟨hreg.trans hesp, ?_⟩
  calc
    (m₂.setEip e).bus.write = ⟨(m₁.setReg .l rESP esp).cpu.linear esp (Fin.ofNat 6 1), 4, cur + v⟩ := hwrite
    _ = ⟨m.cpu.linear (m.reg .l rESP - 4) 1, 4, m.eip + v⟩ := by rw [hlinear, hesp, hcur, heip]

/-- `call_i` pushes `cpu.eip` and the length of its operand. -/
theorem callI_ok {eip n : Word} {m m' : Machine (Logged P)} (h : callI .l eip m = .ok n m') :
    m'.reg .l rESP = m.reg .l rESP - 4 ∧
      m'.bus.write = ⟨m.cpu.linear (m.reg .l rESP - 4) 1, 4, m.eip + 4⟩ := by
  unfold callI at h
  obtain ⟨l, m₁, hd, h⟩ := bind_eq_ok h
  have hcpu := cpu_of_keeps hd
  obtain rfl := decodeI_len hd
  rw [read_bind_run, read_bind_run, write_bind_run] at h
  obtain ⟨_, m₂, hw, h⟩ := bind_eq_ok h
  rw [read_bind_run, write_bind_run] at h
  injection h with _ h
  have hesp : m₁.reg .l rESP - 4 = m.reg .l rESP - 4 := by rw [Machine.reg, hcpu]; rfl
  exact push_logged hcpu hesp rfl hw ⟨_, h.symm⟩

/-- So does `call_rm`. -/
theorem callRm_ok {eip l n : Word} {m m₁ m' : Machine (Logged P)}
    (hd : decodeRm .l (eip + 1) m = .ok l m₁) (h : callRm .l eip m = .ok n m') :
    m'.reg .l rESP = m.reg .l rESP - 4 ∧
      m'.bus.write = ⟨m.cpu.linear (m.reg .l rESP - 4) 1, 4, m.eip + l⟩ := by
  unfold callRm at h
  rw [bind_ok hd, read_bind_run, read_bind_run, write_bind_run] at h
  have hcpu := cpu_of_keeps hd
  obtain ⟨_, m₂, hw, h⟩ := bind_eq_ok h
  rw [read_bind_run, write_bind_run] at h
  injection h with _ h
  have hesp : m₁.reg .l rESP - 4 = m.reg .l rESP - 4 := by rw [Machine.reg, hcpu]; rfl
  exact push_logged hcpu hesp rfl hw ⟨_, h.symm⟩

/-! ### Returns -/

/-- `ret` jumps to what it pops, and says that it is one byte long. -/
theorem retO_ok {eip n : Word} {m m' : Machine (Logged P)} (h : retO .l eip m = .ok n m') :
    n = 1 ∧ ∃ v, m'.bus.read = ⟨m.cpu.linear (m.reg .l rESP) 1, 4, v⟩ ∧ m'.eip = v ∧
      m'.reg .l rESP = m.reg .l rESP + 4 := by
  unfold retO at h
  rw [read_bind_run] at h
  obtain ⟨v, m₁, hr, h⟩ := bind_eq_ok h
  obtain ⟨-, hmem⟩ := swaddrRead_ok hr
  rw [write_bind_run, write_bind_run] at h
  injection h with hn h
  subst h
  exact ⟨hn.symm, v, (readMem_logged hmem).1, rfl, reg_setReg_l ..⟩

/-- The processor and the last read. -/
def Popped (c : CpuState) (a : Access) (m : Machine (Logged P)) : Prop := m.cpu = c ∧ m.bus.read = a

instance (c : CpuState) (a : Access) (addr : Word) (len : ℕ) (data : Word) (sreg : ℕ) :
    Keeps (Popped (P := P) c a) (swaddrWrite addr len data sreg) := by
  refine ⟨fun m hm => ?_⟩
  rw [swaddrWrite_run]
  cases h : writeMem m.cpu addr len data sreg m.bus with
  | none => trivial
  | some p => exact ⟨hm.1, (writeMem_logged h).2.trans hm.2⟩

omit [Bus P] in
theorem popped_of_keeps {α : Type} {k : Cmd (Machine (Logged P)) α} {m m' : Machine (Logged P)} {a : α}
    [hk : Keeps (Popped m.cpu m.bus.read) k] (h : k m = .ok a m') :
    m'.cpu = m.cpu ∧ m'.bus.read = m.bus.read := by
  have hp := hk.ends m ⟨rfl, rfl⟩
  rw [h] at hp
  exact hp

/-- `ret imm16`, for the number of bytes that it reads. -/
theorem retI_ok {eip n val : Word} {m m₁ m' : Machine (Logged P)}
    (hv : instrFetch (eip + 1) 2 m = .ok val m₁) (h : retI .l eip m = .ok n m') :
    n = 1 ∧ ∃ v, m'.bus.read = ⟨m.cpu.linear (m.reg .l rESP) 1, 4, v⟩ ∧ m'.eip = v ∧
      m'.reg .l rESP = m.reg .l rESP + 4 + val := by
  unfold retI at h
  rw [bind_ok hv, read_bind_run] at h
  have hcpu := cpu_of_keeps hv
  obtain ⟨v, m₂, hr, h⟩ := bind_eq_ok h
  obtain ⟨-, hmem⟩ := swaddrRead_ok hr
  rw [write_bind_run, write_bind_run, read_bind_run] at h
  obtain ⟨_, m₃, hloop, h⟩ := bind_eq_ok h
  rw [write_bind_run] at h
  injection h with hn h
  subst h
  obtain ⟨hcpu₃, hread⟩ := popped_of_keeps hloop
  have hesp : m₁.reg .l rESP = m.reg .l rESP := by rw [Machine.reg, hcpu]; rfl
  refine ⟨hn.symm, v, ?_, ?_, ?_⟩
  · calc
      m₃.bus.read = m₂.bus.read := hread
      _ = ⟨m₁.cpu.linear (m₁.reg .l rESP) 1, 4, v⟩ := (readMem_logged hmem).1
      _ = ⟨m.cpu.linear (m.reg .l rESP) 1, 4, v⟩ := by rw [hesp, hcpu]
  · calc
      m₃.cpu.eip = Width.l.trunc v := by rw [hcpu₃]; rfl
      _ = v := by simp [Width.trunc, Width.bits, Width.bytes]
  · rw [reg_setReg_l, reg_setReg_l, hesp]
    rfl

/-! ### Steps -/

/-- A call with 32-bit operands at `eip`, and its length: `call rel32`, or `call
r/m32`. -/
inductive CallAt (m : Machine P) : Word → Prop
  | rel {m₁ : Machine P} (hf : instrFetch m.eip 1 m = .ok 0xe8 m₁) : CallAt m 5
  | rm {modrm len : Word} {m₁ m₂ m₃ : Machine P} (hf : instrFetch m.eip 1 m = .ok 0xff m₁)
    (hm : instrFetch (m.eip + 1) 1 (m₁.setOpcode 0xff) = .ok modrm m₂) (hr : (bits35 modrm).val = 2)
    (hd : decodeRm .l (m.eip + 1) m₂ = .ok len m₃) : CallAt m (len + 1)

/-- A return at `eip`, and the number of bytes of arguments that it drops: `ret`,
`repz ret`, or `ret imm16`. -/
inductive RetAt (m : Machine P) : Word → Prop
  | ret {m₁ : Machine P} (hf : instrFetch m.eip 1 m = .ok 0xc3 m₁) : RetAt m 0
  | repz {m₁ m₂ m₃ : Machine P} (hf : instrFetch m.eip 1 m = .ok 0xf3 m₁)
    (hn : instrFetch (m.eip + 1) 1 (m₁.setOpcode 0xf3) = .ok 0xc3 m₂)
    (he : instrFetch (m.eip + 1) 1 m₂ = .ok 0xc3 m₃) : RetAt m 0
  | imm {n : Word} {m₁ m₂ : Machine P} (hf : instrFetch m.eip 1 m = .ok 0xc2 m₁)
    (hn : instrFetch (m.eip + 1) 2 (m₁.setOpcode 0xc2) = .ok n m₂) : RetAt m n

/-- What `exec` does once the opcode is fetched. -/
theorem exec_ok {eip opcode n : Word} {fuel : ℕ} {m m₁ m' : Machine P}
    (hf : instrFetch eip 1 m = .ok opcode m₁) (h : exec fuel eip m = .ok n m') :
    ∃ fuel', entry (opcodeTable (exec fuel') fuel') opcode.toNat eip (m₁.setOpcode opcode) = .ok n m' := by
  cases fuel with
  | zero => exact nomatch h
  | succ fuel =>
    unfold exec at h
    rw [bind_ok hf, write_bind_run] at h
    exact ⟨fuel, h⟩

/-- A step adds the length to `eip`. -/
theorem execStep_ok {fuel : ℕ} {m m' : Machine P} (h : execStep fuel m = .ok () m') :
    ∃ n m₁, exec fuel m.eip m = .ok n m₁ ∧ m' = m₁.setEip (m₁.eip + n) := by
  unfold execStep at h
  rw [read_bind_run] at h
  obtain ⟨n, m₁, he, h⟩ := bind_eq_ok h
  rw [read_bind_run] at h
  injection h with _ h
  exact ⟨n, m₁, he, h.symm⟩

set_option maxRecDepth 20000 in
/-- A call pushes one less than the address of the next instruction. -/
theorem call_pushes {m m' : Machine (Logged P)} {fuel : ℕ} {L : Word} (hcall : CallAt m L)
    (h16 : m.ops.isOperandSize16 = false) (h : execStep fuel m = .ok () m') :
    m'.reg .l rESP = m.reg .l rESP - 4 ∧
      m'.bus.write = ⟨m.cpu.linear (m.reg .l rESP - 4) 1, 4, m.eip + L - 1⟩ := by
  obtain ⟨n, m₄, he, rfl⟩ := execStep_ok h
  cases hcall with
  | @rel m₁ hf =>
    obtain ⟨hcpu, hops⟩ := fetch_same hf
    obtain ⟨fuel', hentry⟩ := exec_ok hf he
    have hcallI : helperV callI m.eip (m₁.setOpcode 0xe8) = .ok n m₄ := hentry
    have hs16 : (m₁.setOpcode 0xe8).ops.isOperandSize16 = false := by
      rw [← h16, ← hops]
      rfl
    rw [helperV_l hs16] at hcallI
    have hpush := callI_ok hcallI
    have hs : (m₁.setOpcode 0xe8).cpu = m.cpu := hcpu
    have hL : (m₁.setOpcode 0xe8).eip + 4 = m.eip + 5 - 1 := by
      rw [show (m₁.setOpcode 0xe8).eip = m.eip from congrArg CpuState.eip hcpu]
      bv_omega
    rw [reg_of_cpu hs, hs, hL] at hpush
    exact hpush
  | @rm modrm len m₁ m₂ m₃ hf hm hr hd =>
    obtain ⟨hcpu, hops⟩ := fetch_same hf
    obtain ⟨hcpu₂, hops₂⟩ := fetch_same hm
    obtain ⟨fuel', hentry⟩ := exec_ok hf he
    have hgroup : group group5 m.eip (m₁.setOpcode 0xff) = .ok n m₄ := hentry
    unfold group at hgroup
    rw [bind_ok hm, hr] at hgroup
    have hcallRm : helperV callRm m.eip m₂ = .ok n m₄ := hgroup
    have hs16 : m₂.ops.isOperandSize16 = false := by
      rw [hops₂, ← h16, ← hops]
      rfl
    rw [helperV_l hs16] at hcallRm
    have hpush := callRm_ok hd hcallRm
    have hs : m₂.cpu = m.cpu := hcpu₂.trans hcpu
    have hL : m₂.eip + len = m.eip + (len + 1) - 1 := by
      rw [show m₂.eip = m.eip from congrArg CpuState.eip hs]
      bv_omega
    rw [reg_of_cpu hs, hs, hL] at hpush
    exact hpush

set_option maxRecDepth 20000 in
/-- A return resumes one past the address that it pops. -/
theorem ret_resumes {m m' : Machine (Logged P)} {fuel : ℕ} {args : Word} (hret : RetAt m args)
    (h16 : m.ops.isOperandSize16 = false) (h : execStep fuel m = .ok () m') :
    ∃ R, m'.bus.read = ⟨m.cpu.linear (m.reg .l rESP) 1, 4, R⟩ ∧ m'.eip = R + 1 ∧
      m'.reg .l rESP = m.reg .l rESP + 4 + args := by
  obtain ⟨n, m₄, he, rfl⟩ := execStep_ok h
  cases hret with
  | @ret m₁ hf =>
    obtain ⟨hcpu, hops⟩ := fetch_same hf
    obtain ⟨fuel', hentry⟩ := exec_ok hf he
    have hretO : helperV retO m.eip (m₁.setOpcode 0xc3) = .ok n m₄ := hentry
    have hs16 : (m₁.setOpcode 0xc3).ops.isOperandSize16 = false := by
      rw [← h16, ← hops]
      rfl
    rw [helperV_l hs16] at hretO
    obtain ⟨rfl, R, hread, heip, hesp⟩ := retO_ok hretO
    have hs : (m₁.setOpcode 0xc3).cpu = m.cpu := hcpu
    rw [reg_of_cpu hs] at hread hesp
    rw [hs] at hread
    exact ⟨R, hread, congrArg (· + 1) heip, hesp.trans (BitVec.add_zero _).symm⟩
  | @repz m₁ m₂ m₃ hf hn he' =>
    obtain ⟨hcpu, hops⟩ := fetch_same hf
    obtain ⟨hcpu₂, hops₂⟩ := fetch_same hn
    obtain ⟨hcpu₃, hops₃⟩ := fetch_same he'
    obtain ⟨fuel', hentry⟩ := exec_ok hf he
    have hrep : rep (exec fuel') fuel' m.eip (m₁.setOpcode 0xf3) = .ok n m₄ := hentry
    unfold rep at hrep
    rw [bind_ok hn, if_pos rfl] at hrep
    obtain ⟨len, m₅, hexec, hrep⟩ := bind_eq_ok hrep
    obtain ⟨_, m₆, hprint, hrep⟩ := bind_eq_ok hrep
    obtain ⟨text, rfl⟩ := printRep_ok hprint
    injection hrep with hn1 hm
    subst hn1 hm
    obtain ⟨fuel'', hentry⟩ := exec_ok he' hexec
    have hretO : helperV retO (m.eip + 1) (m₃.setOpcode 0xc3) = .ok len m₅ := hentry
    have hs16 : (m₃.setOpcode 0xc3).ops.isOperandSize16 = false := by
      have h₃ : m₃.ops.isOperandSize16 = m₁.ops.isOperandSize16 := by rw [hops₃, hops₂]; rfl
      exact h₃.trans (by rw [hops, h16])
    rw [helperV_l hs16] at hretO
    obtain ⟨-, R, hread, heip, hesp⟩ := retO_ok hretO
    have hs : (m₃.setOpcode 0xc3).cpu = m.cpu := (hcpu₃.trans hcpu₂).trans hcpu
    rw [reg_of_cpu hs] at hread hesp
    rw [hs] at hread
    exact ⟨R, hread, congrArg (· + 1) heip, hesp.trans (BitVec.add_zero _).symm⟩
  | @imm args m₁ m₂ hf hn =>
    obtain ⟨hcpu, hops⟩ := fetch_same hf
    obtain ⟨fuel', hentry⟩ := exec_ok hf he
    have hretI : helperV retI m.eip (m₁.setOpcode 0xc2) = .ok n m₄ := hentry
    have hs16 : (m₁.setOpcode 0xc2).ops.isOperandSize16 = false := by
      rw [← h16, ← hops]
      rfl
    rw [helperV_l hs16] at hretI
    obtain ⟨rfl, R, hread, heip, hesp⟩ := retI_ok hn hretI
    have hs : (m₁.setOpcode 0xc2).cpu = m.cpu := hcpu
    rw [reg_of_cpu hs] at hread hesp
    rw [hs] at hread
    exact ⟨R, hread, congrArg (· + 1) heip, hesp⟩

/-- Neither is the address that a call pushes the one of the next instruction, nor
does a return resume at the address that it pops. -/
theorem call_ret_never {m m' : Machine (Logged P)} {fuel : ℕ} (h16 : m.ops.isOperandSize16 = false)
    (h : execStep fuel m = .ok () m') :
    (∀ L, CallAt m L → m'.reg .l rESP = m.reg .l rESP - 4 ∧
      m'.bus.write.addr = m.cpu.linear (m'.reg .l rESP) 1 ∧ m'.bus.write.len = 4 ∧
      m'.bus.write.data = m.eip + L - 1 ∧ m'.bus.write.data ≠ m.eip + L) ∧
    ∀ args, RetAt m args → m'.bus.read.addr = m.cpu.linear (m.reg .l rESP) 1 ∧ m'.bus.read.len = 4 ∧
      m'.eip = m'.bus.read.data + 1 ∧ m'.eip ≠ m'.bus.read.data ∧
      m'.reg .l rESP = m.reg .l rESP + 4 + args := by
  refine ⟨fun L hcall => ?_, fun args hret => ?_⟩
  · obtain ⟨hesp, hwrite⟩ := call_pushes hcall h16 h
    rw [hwrite, hesp]
    refine ⟨rfl, rfl, rfl, rfl, fun heq => ?_⟩
    dsimp only at heq
    bv_omega
  · obtain ⟨R, hread, heip, hesp⟩ := ret_resumes hret h16 h
    rw [hread, heip]
    refine ⟨rfl, rfl, rfl, fun heq => ?_, hesp⟩
    dsimp only at heq
    bv_omega

end Logged

/-- A machine with flat memory, and a log of its accesses. -/
def logging (m : Machine FlatBus) : Machine (Logged FlatBus) :=
  ⟨m.cpu, m.ops, m.state, ⟨m.bus, ⟨0, 0, 0⟩, ⟨0, 0, 0⟩⟩, m.assembly⟩

/-- `call` at 0. -/
def callMachine : Machine FlatBus := flatMachine (fun _ => 0x100) [0xe8, 0, 0, 0, 0]

/-- `ret` at 0, with the address 0x50 on the stack at 4. -/
def retMachine : Machine FlatBus := flatMachine (fun _ => 4) [0xc3, 0, 0, 0, 0x50, 0, 0, 0]

theorem call_ret_never_rel :
    (∃ m', execStep 1 (logging callMachine) = .ok () m' ∧ m'.bus.write.data ≠ 0 + 5) ∧
    ∃ m', execStep 1 (logging retMachine) = .ok () m' ∧ m'.eip = m'.bus.read.data + 1 := by
  have hcall : ∃ m', execStep 1 (logging callMachine) = .ok () m' := ⟨_, rfl⟩
  have hret : ∃ m', execStep 1 (logging retMachine) = .ok () m' := ⟨_, rfl⟩
  have hfetchCall : ∃ m₁, instrFetch 0 1 (logging callMachine) = .ok 0xe8 m₁ := ⟨_, rfl⟩
  have hfetchRet : ∃ m₁, instrFetch 0 1 (logging retMachine) = .ok 0xc3 m₁ := ⟨_, rfl⟩
  obtain ⟨m', hcall⟩ := hcall
  obtain ⟨m'', hret⟩ := hret
  obtain ⟨_, hfetchCall⟩ := hfetchCall
  obtain ⟨_, hfetchRet⟩ := hfetchRet
  exact ⟨⟨m', hcall, ((call_ret_never rfl hcall).1 5 (.rel hfetchCall)).2.2.2.2⟩,
    m'', hret, ((call_ret_never rfl hret).2 0 (.ret hfetchRet)).2.2.1⟩

/-- The call pushes 4, and the return resumes at 0x51. -/
theorem call_ret_wrong :
    (∃ m', execStep 1 callMachine = .ok () m' ∧ m'.reg .l rESP = 0xfc ∧ m'.bus.load 0xfc 4 = 4) ∧
    retMachine.bus.load (retMachine.reg .l rESP) 4 = 0x50 ∧
    ∃ m', execStep 1 retMachine = .ok () m' ∧ m'.eip = 0x51 :=
  ⟨⟨_, rfl, by decide +kernel, by decide +kernel⟩, by decide +kernel, ⟨_, rfl, by decide +kernel⟩⟩

end Nemu
