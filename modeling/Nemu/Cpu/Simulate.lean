/-
# Instructions on an abstract processor and memory

A machine runs like a processor and a memory next to it, up to flags that may
differ. Instructions are shown to do what is computed on the processor and the
memory alone; they return, unless an access fails.

Key definitions: `Accesses`, `Coded`, `Sim`.
Key theorems: `swaddrRead_returns`, `swaddrWrite_returns`, `fetch_sim`, `exec_entry`.
-/
import Nemu.Cpu.FlagFrame
import Nemu.Cpu.Ram
import Mathlib.Data.List.GetD

namespace Nemu

open Bytes Cmd Instr WordMem

/-! ### Accesses that succeed -/

/-- A length is accepted. -/
theorem Width.len_ok (d : Width) : d.bytes = 1 ∨ d.bytes = 2 ∨ d.bytes = 4 := by cases d <;> decide

/-- Accesses to linear memory fail only as `E` allows. -/
class Accesses (P : Type) [Bus P] (E : Failure → Prop) : Prop where
  read : ∀ (cr0 cr3 addr : Word) (len : ℕ) (p : P), len = 1 ∨ len = 2 ∨ len = 4 →
    Bus.lnaddrRead cr0 cr3 addr len p = none → E .assertion
  write : ∀ (cr0 cr3 addr data : Word) (len : ℕ) (p : P), len = 1 ∨ len = 2 ∨ len = 4 →
    Bus.lnaddrWrite cr0 cr3 addr len data p = none → E .assertion

instance (P : Type) [Bus P] : Accesses P fun _ => True where
  read _ _ _ _ _ _ _ := trivial
  write _ _ _ _ _ _ _ _ := trivial

instance (E : Failure → Prop) : Accesses FlatBus E := ⟨nofun, nofun⟩

section Returns

variable {P : Type} [Bus P] [Ram P] {E : Failure → Prop} [hE : Accesses P E] {m : Machine P}

/-- The same machine, but for what the bus keeps beside the memory. -/
structure Same (m m' : Machine P) : Prop where
  cpu : m'.cpu = m.cpu
  ops : m'.ops = m.ops
  mem : m'.mem = m.mem

theorem lnaddrRead_returns {len : ℕ} (hl : len = 1 ∨ len = 2 ∨ len = 4) (addr : Word) (m : Machine P) :
    Returns (fun v m' => m'.cpu = m.cpu ∧ m'.ops = m.ops ∧ m'.mem = m.mem ∧ v = peek m.mem addr len)
      (lnaddrRead addr len m) E := by
  unfold lnaddrRead
  rw [if_pos hl, read_bind_run, bind_run, bus, access]
  cases h : Bus.lnaddrRead m.cpu.cr0 m.cpu.cr3 addr len m.bus with
  | none => exact hE.read _ _ _ _ _ hl h
  | some r =>
    obtain ⟨hload, hmem⟩ := Ram.read_ok hl h
    exact ⟨rfl, rfl, hmem, hload⟩

theorem swaddrRead_returns {len sreg : ℕ} (hl : len = 1 ∨ len = 2 ∨ len = 4) (hs : sreg < 4)
    (addr : Word) (m : Machine P) :
    Returns (fun v m' => m'.cpu = m.cpu ∧ m'.ops = m.ops ∧ m'.mem = m.mem ∧
      v = peek m.mem (m.cpu.linear addr (Fin.ofNat 6 sreg)) len) (swaddrRead addr len sreg m) E := by
  have hrun := swaddrRead_run addr len sreg m
  cases hr : readMem m.cpu addr len sreg m.bus with
  | none =>
    rw [hrun, hr]
    rw [readMem, if_pos ⟨hl, hs⟩, Option.map_eq_none_iff] at hr
    have habort : E .assertion := hE.read _ _ _ _ _ hl hr
    change E (if len = 1 ∨ len = 2 ∨ len = 4 then .assertion else .length)
    rwa [if_pos hl]
  | some r =>
    rw [hr] at hrun
    obtain ⟨hcpu, hops, hmem, -, hv⟩ := swaddrRead_mem hrun
    rw [hrun]
    exact ⟨hcpu, hops, hmem, hv⟩

theorem swaddrWrite_returns {len sreg : ℕ} (hl : len = 1 ∨ len = 2 ∨ len = 4) (hs : sreg < 4)
    (addr data : Word) (m : Machine P) :
    Returns (fun _ m' => m'.cpu = m.cpu ∧ m'.ops = m.ops ∧
      m'.mem = poke m.mem (m.cpu.linear addr (Fin.ofNat 6 sreg)) len data)
      (swaddrWrite addr len data sreg m) E := by
  have hrun := swaddrWrite_run addr len data sreg m
  cases hw : writeMem m.cpu addr len data sreg m.bus with
  | none =>
    rw [hrun, hw]
    rw [writeMem, if_pos ⟨hl, hs⟩, Option.map_eq_none_iff] at hw
    have habort : E .assertion := hE.write _ _ _ _ _ _ hl hw
    change E (if len = 1 ∨ len = 2 ∨ len = 4 then .assertion else .length)
    rwa [if_pos hl]
  | some p =>
    rw [hw] at hrun
    obtain ⟨hcpu, hops, -, hmem⟩ := swaddrWrite_mem hrun
    rw [hrun]
    exact ⟨hcpu, hops, hmem⟩

end Returns

/-! ### Where the instruction is -/

/-- The four bytes of an immediate. -/
def immediate (v : Word) : List Byte := [byte v 0, byte v 1, byte v 2, byte v 3]

/-- These bytes are at `eip`. -/
def Coded (s : CpuState × Mem) (eip : Word) (code : List Byte) : Prop :=
  ∀ i < code.length, s.2 (s.1.linear (eip + BitVec.ofNat 32 i) 1) = code.getD i 0

theorem Coded.head {eip : Word} {k : Byte} {code : List Byte} (h : Coded s eip (k :: code)) :
    s.2 (s.1.linear eip 1) = k := by
  have hk := h 0 (Nat.succ_pos _)
  rwa [BitVec.add_zero] at hk

theorem Coded.tail {eip : Word} {k : Byte} {code : List Byte} (h : Coded s eip (k :: code)) :
    Coded s (eip + 1) code := by
  intro i hi
  have hk := h (i + 1) (Nat.succ_lt_succ hi)
  rw [Nat.add_comm i 1, BitVec.ofNat_add, ← BitVec.add_assoc, Nat.add_comm 1 i] at hk
  exact hk

section Code

variable {s : CpuState × Mem} {eip : Word} {code imm : List Byte}

/-- An access to code at `eip`. -/
theorem Coded.peek (h : Coded s eip code) {i n : ℕ} (hi : i + n ≤ code.length) :
    peek s.2 (s.1.linear (eip + BitVec.ofNat 32 i) 1) n = word (fun j => code.getD (i + j) 0) n := by
  refine word_congr fun j hj => ?_
  have hbyte := h (i + j) (by omega)
  have hadd := s.1.linear_add (eip + BitVec.ofNat 32 i) (BitVec.ofNat 32 j) 1
  rw [← hbyte, ← hadd, BitVec.ofNat_add, BitVec.add_comm (BitVec.ofNat 32 j), BitVec.add_assoc]

theorem Coded.left (h : Coded s eip (code ++ imm)) : Coded s eip code := by
  intro i hi
  have hbyte := h i (by rw [List.length_append]; omega)
  rwa [List.getD_append _ _ _ _ hi] at hbyte

theorem Coded.right (h : Coded s eip (code ++ imm)) :
    Coded s (eip + BitVec.ofNat 32 code.length) imm := by
  intro i hi
  have hbyte := h (code.length + i) (by rw [List.length_append]; omega)
  rwa [List.getD_append_right _ _ _ _ (Nat.le_add_right _ _), Nat.add_sub_cancel_left,
    BitVec.ofNat_add, ← BitVec.add_assoc] at hbyte

theorem Coded.peek_self (h : Coded s eip imm) :
    WordMem.peek s.2 (s.1.linear eip 1) imm.length = word (fun j => imm.getD j 0) imm.length := by
  have hpeek := h.peek (i := 0) (n := imm.length) (by omega)
  rw [BitVec.add_zero] at hpeek
  exact hpeek.trans (word_congr fun j _ => by rw [Nat.zero_add])

instance : Decidable (Coded s eip code) := inferInstanceAs (Decidable (∀ i < code.length, _))

end Code

/-- A ModR/M byte (`mod`, `reg`, `R_M`) or an SIB byte (`ss`, `index`, `base`). -/
def fields (high : Fin 4) (mid low : Fin 8) : Byte :=
  BitVec.ofNat 8 (high.val * 64 + mid.val * 8 + low.val)

theorem toNat_fields (x : Fin 4) (y z : Fin 8) :
    ((fields x y z).setWidth 32).toNat = x.val * 64 + y.val * 8 + z.val := by
  rw [fields, BitVec.toNat_setWidth, BitVec.toNat_ofNat]
  omega

@[simp] theorem bits67_fields (x : Fin 4) (y z : Fin 8) : bits67 ((fields x y z).setWidth 32) = x.val := by
  rw [bits67, toNat_fields]
  omega

@[simp] theorem bits35_fields (x : Fin 4) (y z : Fin 8) : bits35 ((fields x y z).setWidth 32) = y := by
  rw [bits35, toNat_fields]
  exact Fin.ext (by rw [Fin.val_ofNat]; omega)

@[simp] theorem bits02_fields (x : Fin 4) (y z : Fin 8) : bits02 ((fields x y z).setWidth 32) = z := by
  rw [bits02, toNat_fields]
  exact Fin.ext (by rw [Fin.val_ofNat]; omega)

/-- A byte is sign-extended. -/
theorem sext_byte (b : Byte) : Width.sext .b (b.setWidth 32) = b.signExtend 32 := by
  rw [Width.sext]
  congr 1
  exact BitVec.setWidth_setWidth_of_le _ (by decide)

theorem peek_one (f : Mem) (a : Word) : peek f a 1 = (f a).setWidth 32 := by
  simp [peek, word]

/-! ### The machine beside them -/

section Sim

variable {P : Type} [Bus P] [Ram P]

/-- The machine is as the processor and memory on the left, but for these flags. -/
structure Sim (fs : List Flag) (b : Bool) (s : CpuState × Mem) (m : Machine P) : Prop where
  cpu : m.cpu = { s.1 with eflags := m.cpu.eflags }
  flags : Only fs s.1.eflags m.cpu.eflags
  mem : m.mem = s.2
  size : m.ops.isOperandSize16 = b

namespace Sim

variable {fs : List Flag} {b : Bool} {s : CpuState × Mem} {m m' : Machine P}

theorem reg (h : Sim fs b s m) (d : Width) (i : Fin 8) : m.reg d i = s.1.reg d i := by
  rw [Machine.reg, h.cpu]
  cases d <;> rfl

theorem linear (h : Sim fs b s m) (addr : Word) (i : Fin 6) : m.cpu.linear addr i = s.1.linear addr i := by
  rw [h.cpu]
  rfl

theorem flag (h : Sim fs b s m) {f : Flag} (hf : f ∉ fs) : m.flag f = s.1.flag f := by
  refine h.flags f.bit fun g hg heq => hf ?_
  rwa [Flag.bit_inj heq]

theorem setReg (h : Sim fs b s m) (d : Width) (i : Fin 8) (v : Word) :
    Sim fs b (s.1.setReg d i v, s.2) (m.setReg d i v) where
  cpu := by
    have hcpu : (m.setReg d i v).cpu = m.cpu.setReg d i v := rfl
    rw [hcpu, h.cpu]
    cases d <;> rfl
  flags := by
    have hflags := h.flags
    cases d <;> exact hflags
  mem := (m.mem_setReg d i v).trans h.mem
  size := h.size

omit [Bus P] [Ram P] in
theorem cpu_setFlag (h : m.cpu = { s.1 with eflags := m.cpu.eflags }) (f : Flag) (v : Bool) :
    (m.setFlag f v).cpu = { s.1 with eflags := (m.setFlag f v).cpu.eflags } := by
  have hcpu : (m.setFlag f v).cpu = { m.cpu with eflags := (m.setFlag f v).cpu.eflags } := rfl
  rw [hcpu, h]

/-- Without exceptions the registers are the same. -/
theorem cpu_eq (h : Sim [] b s m) : m.cpu = s.1 := by
  have heflags : m.cpu.eflags = s.1.eflags :=
    BitVec.eq_of_getLsbD_eq fun i _ => h.flags i fun f hf => absurd hf List.not_mem_nil
  rw [h.cpu, heflags]

/-- A flag that the instruction sets as the abstract step does. -/
theorem setFlag (h : Sim fs b s m) (f : Flag) (v : Bool) :
    Sim fs b (s.1.setFlag f v, s.2) (m.setFlag f v) where
  cpu := cpu_setFlag h.cpu f v
  flags := by
    intro i hi
    have hbits := h.flags i hi
    refine (m.cpu.getLsbD_setFlag f v i).trans ?_
    rw [CpuState.getLsbD_setFlag, hbits]
  mem := h.mem
  size := h.size

/-- One of the others. -/
theorem setOwn {f : Flag} (h : Sim fs b s m) (hf : f ∈ fs) (v : Bool) : Sim fs b s (m.setFlag f v) where
  cpu := cpu_setFlag h.cpu f v
  flags := by
    intro i hi
    refine (m.cpu.getLsbD_setFlag f v i).trans ?_
    rw [if_neg (hi f hf)]
    exact h.flags i hi
  mem := h.mem
  size := h.size

/-- With more exceptions. -/
theorem mono {fs' : List Flag} (h : Sim fs b s m) (hfs : fs ⊆ fs') : Sim fs' b s m where
  cpu := h.cpu
  flags := fun k hk => h.flags k fun f hf => hk f (hfs hf)
  mem := h.mem
  size := h.size

/-- A machine with the same registers. -/
theorem access {f : Mem} (h : Sim fs b s m) (hcpu : m'.cpu = m.cpu) (hops : m'.ops = m.ops)
    (hmem : m'.mem = f) : Sim fs b (s.1, f) m' where
  cpu := by rw [hcpu]; exact h.cpu
  flags := by rw [hcpu]; exact h.flags
  mem := hmem
  size := by rw [hops]; exact h.size

end Sim

variable {fs : List Flag} {b : Bool} {s : CpuState × Mem} {m m' : Machine P}

theorem Sim.eip (h : Sim fs b s m) : m.eip = s.1.eip := by
  rw [Machine.eip, h.cpu]

theorem Sim.setEip (h : Sim fs b s m) (v : Word) : Sim fs b ({ s.1 with eip := v }, s.2) (m.setEip v) where
  cpu := by
    have hcpu : (m.setEip v).cpu = { m.cpu with eip := v } := rfl
    rw [hcpu, h.cpu]
  flags := h.flags
  mem := h.mem
  size := h.size

theorem Sim.setSreg (h : Sim fs b s m) (i : Fin 6) (r : SegReg) :
    Sim fs b ({ s.1 with sreg := Function.update s.1.sreg i r }, s.2) (m.setSreg i r) where
  cpu := by
    have hcpu : (m.setSreg i r).cpu = { m.cpu with sreg := Function.update m.cpu.sreg i r } := rfl
    rw [hcpu, h.cpu]
  flags := h.flags
  mem := h.mem
  size := h.size

/-- `eflags` is known again when it is loaded. -/
theorem Sim.setEflags (h : Sim fs b s m) (v : Word) :
    Sim [] b ({ s.1 with eflags := v }, s.2) (m.setEflags v) where
  cpu := by
    have hcpu : (m.setEflags v).cpu = { m.cpu with eflags := v } := rfl
    rw [hcpu, h.cpu]
  flags := Only.refl _ _
  mem := h.mem
  size := h.size

theorem Sim.setOpcode (h : Sim fs b s m) (v : Word) : Sim fs b s (m.setOpcode v) :=
  ⟨h.cpu, h.flags, h.mem, h.size⟩

theorem Sim.setOperandSize16 (h : Sim fs b s m) (b' : Bool) :
    Sim fs b' s (m.setOperandSize16 b') := ⟨h.cpu, h.flags, h.mem, rfl⟩

/-! ### Execution -/

variable {E : Failure → Prop} [hE : Accesses P E] {fuel : ℕ} {eip : Word} {Q : Word → Machine P → Prop}
  {len : ℕ}

theorem lnaddrRead_sim (h : Sim fs b s m) (hl : len = 1 ∨ len = 2 ∨ len = 4) (addr : Word) :
    Returns (fun v m' => Sim fs b s m' ∧ v = peek s.2 addr len) (lnaddrRead addr len m) E := by
  refine (lnaddrRead_returns hl addr m).mono fun v m' hread => ?_
  obtain ⟨hcpu, hops, hmem, hv⟩ := hread
  exact ⟨h.access hcpu hops (hmem.trans h.mem), by rw [hv, h.mem]⟩

theorem swaddrRead_sim {i : ℕ} (h : Sim fs b s m) (hl : len = 1 ∨ len = 2 ∨ len = 4) (hi : i < 4)
    (addr : Word) : Returns (fun v m' => Sim fs b s m' ∧ m'.ops = m.ops ∧
      v = peek s.2 (s.1.linear addr (Fin.ofNat 6 i)) len) (swaddrRead addr len i m) E := by
  refine (swaddrRead_returns hl hi addr m).mono fun v m' hread => ?_
  obtain ⟨hcpu, hops, hmem, hv⟩ := hread
  exact ⟨h.access hcpu hops (hmem.trans h.mem), hops, by rw [hv, h.mem, h.linear]⟩

theorem swaddrWrite_sim {i : ℕ} (h : Sim fs b s m) (hl : len = 1 ∨ len = 2 ∨ len = 4) (hi : i < 4)
    (addr v : Word) : Returns (fun _ m' =>
      Sim fs b (s.1, poke s.2 (s.1.linear addr (Fin.ofNat 6 i)) len v) m' ∧ m'.ops = m.ops)
      (swaddrWrite addr len v i m) E := by
  refine (swaddrWrite_returns hl hi addr v m).mono fun _ m' hwrite => ?_
  obtain ⟨hcpu, hops, hmem⟩ := hwrite
  rw [h.mem, h.linear] at hmem
  exact ⟨h.access hcpu hops hmem, hops⟩

theorem fetch_sim (h : Sim fs b s m) :
    Returns (fun v m' => Sim fs b s m' ∧ v = (s.2 (s.1.linear eip 1)).setWidth 32)
      (instrFetch eip 1 m) E := by
  refine (swaddrRead_sim h (.inl rfl) (by decide) eip).mono fun v m' hread => ?_
  obtain ⟨hsim, -, hv⟩ := hread
  rw [hv, peek_one]
  exact ⟨hsim, rfl⟩

/-- The text in `assembly` is this one. -/
def TextIs (a : Assembly) (m : Machine P) : Prop := m.assembly = a

omit [Bus P] [Ram P] in
instance (a : Assembly) (p : P) : Kept (TextIs a) (Machine.setBus · p) := ⟨fun _ h => h⟩

/-- An instruction is executed as the table has it, with its text. -/
theorem exec_entry_text {k : Byte} (h : Sim fs b s m) (hk : s.2 (s.1.linear eip 1) = k)
    (hentry : ∀ m', Sim fs b s m' → m'.ops.opcode = k.setWidth 32 →
      TextIs (m.assembly.print (k.setWidth 32)) m' →
      Returns Q (entry (opcodeTable (exec fuel) fuel) k.toNat eip m') E) :
    Returns Q (exec (fuel + 1) eip m) E := by
  unfold exec
  refine ((fetch_sim h).and_keeps (I := TextIs m.assembly) rfl).bind fun v m₁ hfetch => ?_
  obtain ⟨⟨hsim, hv⟩, htext⟩ := hfetch
  rw [hk] at hv
  have hnat : v.toNat = k.toNat := by
    rw [hv, BitVec.toNat_setWidth, Nat.mod_eq_of_lt (by omega)]
  rw [write_bind_run, hnat]
  refine hentry _ (hsim.setOpcode v) hv ?_
  rw [TextIs, Machine.setOpcode, htext, hv]

theorem exec_entry {k : Byte} (h : Sim fs b s m) (hk : s.2 (s.1.linear eip 1) = k)
    (hentry : ∀ m', Sim fs b s m' → m'.ops.opcode = k.setWidth 32 →
      Returns Q (entry (opcodeTable (exec fuel) fuel) k.toNat eip m') E) :
    Returns Q (exec (fuel + 1) eip m) E :=
  exec_entry_text h hk fun m' hsim hopcode _ => hentry m' hsim hopcode

theorem execStep_sim {k : Byte} {fuel : ℕ} {Q : Machine P → Prop} (h : Sim fs false s m)
    (hk : s.2 (s.1.linear s.1.eip 1) = k)
    (hentry : ∀ m', Sim fs false s m' → m'.ops.opcode = k.setWidth 32 →
      Returns (fun len m'' => Q (m''.setEip (m''.eip + len)))
        (entry (opcodeTable (exec fuel) fuel) k.toNat s.1.eip m') E) :
    Returns (fun _ => Q) (execStep (fuel + 1) m) E := by
  unfold execStep
  rw [read_bind_run, h.eip]
  refine (exec_entry h hk hentry).bind fun len m' hQ => ?_
  rw [read_bind_run]
  exact hQ

omit hE in
theorem helperV_sim {g : Width → Helper P} {Q : Word → Machine P → Prop} {eip : Word}
    (h : Sim fs false s m) (hg : Returns Q (g .l eip m) E) : Returns Q (helperV g eip m) E := by
  rw [helperV_l h.size]
  exact hg

/-! ### Operands -/

/-- An immediate. -/
theorem decodeI_sim (d : Width) (h : Sim fs b s m) :
    Returns (fun len m' => Sim fs b s m' ∧ len = d.len ∧ m'.operand .dest = m.operand .dest ∧
      m'.type .src = .imm ∧ m'.val .src = peek s.2 (s.1.linear eip 1) d.bytes) (decodeI d eip m) E := by
  have htype : Sim fs b s (m.setType .src .imm) := ⟨h.cpu, h.flags, h.mem, h.size⟩
  unfold decodeI
  rw [write_bind_run]
  refine (swaddrRead_sim htype d.len_ok (by decide) eip).bind fun v m' hread => ?_
  obtain ⟨hsim, hops, hv⟩ := hread
  have hop : m'.operand = (m.setType .src .imm).operand := congrArg Operands.operand hops
  refine ⟨⟨hsim.cpu, hsim.flags, hsim.mem, hsim.size⟩, rfl, ?_, ?_, hv⟩
  · change m'.operand .dest = _
    rw [hop]
    rfl
  · change m'.type .src = _
    rw [Machine.type, hop]
    rfl

omit hE in
/-- A register of the opcode. -/
theorem decodeR_sim (d : Width) {eip : Word} (h : Sim fs b s m) :
    Returns (fun len m' => Sim fs b s m' ∧ len = 0 ∧ m'.val .src = s.1.reg d (bits02 m.ops.opcode))
      (decodeR d eip m) E :=
  ⟨⟨h.cpu, h.flags, h.mem, h.size⟩, rfl, h.reg d _⟩

/-- An instruction with an immediate. -/
theorem opI_sim {d : Width} {e : Width → Cmd (Machine P) Unit} {eip : Word} {s' : CpuState × Mem}
    (h : Sim fs b s m) (he : ∀ m', Sim fs b s m' → m'.type .src = .imm →
      m'.val .src = peek s.2 (s.1.linear (eip + 1) 1) d.bytes → Returns (fun _ => Sim fs b s') (e d m') E) :
    Returns (fun len m' => Sim fs b s' m' ∧ len = d.len + 1) (opI e d eip m) E := by
  unfold opI idex
  refine (decodeI_sim d h).bind fun len m₁ hdec => ?_
  obtain ⟨hsim, rfl, -, htype, hval⟩ := hdec
  exact (he m₁ hsim htype hval).bind fun _ m₂ hdone => ⟨hdone, rfl⟩

/-- A sign-extended immediate, beside a decoded operand. -/
theorem decodeSi_sim (d : Width) {eip : Word} (h : Sim fs b s m) :
    Returns (fun len m' => Sim fs b s m' ∧ len = d.len ∧ m'.operand .dest = m.operand .dest ∧
      m'.val .src = d.sext (peek s.2 (s.1.linear eip 1) d.bytes)) (decodeSi d eip m) E := by
  have htype : Sim fs b s (m.setType .src .imm) := ⟨h.cpu, h.flags, h.mem, h.size⟩
  have hl : d.bytes = 1 ∨ d.bytes = 2 ∨ d.bytes = 4 := by cases d <;> decide
  unfold decodeSi
  rw [write_bind_run]
  refine (swaddrRead_sim htype hl (by decide) eip).bind fun v m' hread => ?_
  obtain ⟨hsim, hops, rfl⟩ := hread
  have hdest : m'.operand .dest = m.operand .dest := by
    rw [Machine.operand, hops]
    rfl
  exact ⟨⟨hsim.cpu, hsim.flags, hsim.mem, hsim.size⟩, rfl, hdest, rfl⟩

omit hE in
theorem setAddFlags_sim {d : Width} (dest src result : Word) (h : Sim status b s m) :
    Returns (fun _ => Sim status b s) (setAddFlags d dest src result m) E := by
  have hcf := h.setOwn (show Flag.CF ∈ status by decide) (result.ult dest)
  have hof := hcf.setOwn (show Flag.OF ∈ status by decide)
    (d.msb dest == d.msb src && d.msb result != d.msb dest)
  have hsf := hof.setOwn (show Flag.SF ∈ status by decide) (d.msb result)
  have hzf := hsf.setOwn (show Flag.ZF ∈ status by decide) (result == 0)
  exact hzf.setOwn (show Flag.PF ∈ status by decide) (parity result)

/-- A group takes the field `reg` of its ModR/M byte for the opcode. -/
theorem group_sim {table : List (Helper P)} {x : Fin 4} {y z : Fin 8} (h : Sim fs b s m)
    (hat : s.2 (s.1.linear (eip + 1) 1) = fields x y z)
    (hentry : ∀ m', Sim fs b s m' → Returns Q (entry table y.val eip m') E) :
    Returns Q (group table eip m) E := by
  unfold group
  refine (fetch_sim h).bind fun v m' hfetch => ?_
  obtain ⟨hsim, rfl⟩ := hfetch
  rw [hat, bits35_fields]
  exact hentry m' hsim

/-- A register as the operand that a ModR/M byte names. -/
theorem decodeRm_reg_sim (d : Width) {k reg : Slot} (hne : k ≠ reg) {y i : Fin 8} (h : Sim fs b s m)
    (hat : s.2 (s.1.linear eip 1) = fields 3 y i) :
    Returns (fun len m' => Sim fs b s m' ∧ len = 1 ∧ m'.type k = .reg ∧ m'.loc k = regNo i ∧
      m'.val k = s.1.reg d i) (decodeRmInternal d eip k reg m) E := by
  have hsize : Sim fs b s (m.setSize k d.bytes) := ⟨h.cpu, h.flags, h.mem, h.size⟩
  unfold decodeRmInternal readModRM
  rw [write_bind_run]
  refine Returns.bind (Q := fun r m' => r = (1, y) ∧ Sim fs b s m' ∧ m'.type k = .reg ∧
    m'.loc k = regNo i ∧ m'.val k = s.1.reg d i) ?_ fun r m₁ h₁ => ?_
  · refine (fetch_sim hsize).bind fun v m₁ hfetch => ?_
    obtain ⟨h₁, rfl⟩ := hfetch
    rw [hat, bits35_fields, bits67_fields, bits02_fields, write_bind_run, write_bind_run, write_bind_run,
      if_pos (show (3 : Fin 4).val = 3 from rfl)]
    refine ⟨rfl, ⟨h₁.cpu, h₁.flags, h₁.mem, h₁.size⟩, ?_, ?_, ?_⟩
    · simp [Machine.type, Machine.setVal, Machine.setLoc, Machine.setType]
    · simp [Machine.loc, Machine.setVal, Machine.setLoc]
    · rw [Machine.val_setVal, if_pos rfl]
      exact h₁.reg d i
  · obtain ⟨rfl, hsim, htype, hloc, hval⟩ := h₁
    refine ⟨⟨hsim.cpu, hsim.flags, hsim.mem, hsim.size⟩, rfl, ?_, ?_, ?_⟩
    · rw [← htype]
      simp [Machine.type, Machine.setVal, hne]
    · rw [← hloc]
      simp [Machine.loc, Machine.setVal, hne]
    · rw [← hval, Machine.val_setVal, if_neg hne]

/-- A register and an immediate. -/
theorem decodeI2rm_reg_sim (d : Width) {y i : Fin 8} (h : Sim fs b s m)
    (hat : s.2 (s.1.linear eip 1) = fields 3 y i) :
    Returns (fun len m' => Sim fs b s m' ∧ len = 1 + d.len ∧ m'.type .dest = .reg ∧
      m'.loc .dest = regNo i ∧ m'.val .dest = s.1.reg d i ∧
      m'.val .src = peek s.2 (s.1.linear (eip + 1) 1) d.bytes) (decodeI2rm d eip m) E := by
  unfold decodeI2rm
  refine (decodeRm_reg_sim d (by decide) h hat).bind fun len m₁ h₁ => ?_
  obtain ⟨hsim₁, rfl, htype, hloc, hval⟩ := h₁
  refine (decodeI_sim d hsim₁).bind fun len m₂ h₂ => ?_
  obtain ⟨hsim₂, rfl, hop, -, hsrc⟩ := h₂
  refine ⟨hsim₂, rfl, ?_, ?_, ?_, hsrc⟩
  · rw [Machine.type, hop, ← htype, Machine.type]
  · rw [Machine.loc, hop, ← hloc, Machine.loc]
  · rw [Machine.val, hop, ← hval, Machine.val]

/-- A register and a sign-extended byte. -/
theorem decodeSi2rm_reg_sim (d : Width) {y i : Fin 8} (h : Sim fs b s m)
    (hat : s.2 (s.1.linear eip 1) = fields 3 y i) :
    Returns (fun len m' => Sim fs b s m' ∧ len = 2 ∧ m'.type .dest = .reg ∧
      m'.loc .dest = regNo i ∧ m'.val .dest = s.1.reg d i ∧
      m'.val .src = (s.2 (s.1.linear (eip + 1) 1)).signExtend 32) (decodeSi2rm d eip m) E := by
  unfold decodeSi2rm
  refine (decodeRm_reg_sim d (by decide) h hat).bind fun len m₁ h₁ => ?_
  obtain ⟨hsim₁, rfl, htype, hloc, hval⟩ := h₁
  refine (decodeSi_sim .b hsim₁).bind fun len m₂ h₂ => ?_
  obtain ⟨hsim₂, rfl, hop, hsrc⟩ := h₂
  refine ⟨hsim₂, rfl, ?_, ?_, ?_, ?_⟩
  · rw [Machine.type, hop, ← htype, Machine.type]
  · rw [Machine.loc, hop, ← hloc, Machine.loc]
  · rw [Machine.val, hop, ← hval, Machine.val]
  · rw [hsrc, ← sext_byte]
    exact congrArg (Width.sext .b) (peek_one _ _)

end Sim

end Nemu
