/-
# A bus with RAM

What the accesses of an instruction do to memory, when linear memory is RAM
wherever it can be accessed at all.

Key definitions: `Ram`, `Machine.mem`, `MemIs`, `CpuState.Flat`.
Key theorems: `swaddrRead_mem`, `swaddrWrite_mem`, `mem_of_keeps`.
-/
import Nemu.Cpu.FlatBus
import Nemu.Cpu.Ordinary
import Nemu.Cpu.Registers
import Nemu.Lib.WordMem

namespace Nemu

open Bytes Cmd WordMem

/-- Linear memory under `cr0` and `cr3` is RAM: an access that succeeds reads or
writes its bytes. -/
class Ram (P : Type) [Bus P] where
  mem : Word → Word → P → Mem
  read_ok : ∀ {cr0 cr3 addr : Word} {len : ℕ} {p p' : P} {v : BitVec (8 * len)},
    len = 1 ∨ len = 2 ∨ len = 4 → Bus.lnaddrRead cr0 cr3 addr len p = some (v, p') →
    v.setWidth 32 = peek (mem cr0 cr3 p) addr len ∧ mem cr0 cr3 p' = mem cr0 cr3 p
  write_ok : ∀ {cr0 cr3 addr data : Word} {len : ℕ} {p p' : P},
    len = 1 ∨ len = 2 ∨ len = 4 → Bus.lnaddrWrite cr0 cr3 addr len data p = some ((), p') →
    mem cr0 cr3 p' = poke (mem cr0 cr3 p) addr len data

instance : Ram FlatBus where
  mem _ _ p := p.mem
  read_ok {cr0 cr3 addr len p p' v} hl h := by
    obtain ⟨rfl, rfl⟩ := Prod.mk.inj (Option.some.inj h)
    refine ⟨ext_bytes fun i hi => ?_, rfl⟩
    rw [byte_trunc _ hi, FlatBus.load, peek, byte_word _ _ _ hi]
    by_cases hlen : i < len
    · rw [if_pos hlen, if_pos hlen]
    · rw [if_neg hlen, if_neg hlen]
  write_ok {cr0 cr3 addr data len p p'} hl h := by
    obtain ⟨-, rfl⟩ := Prod.mk.inj (Option.some.inj h)
    rfl

/-- A segment begins at address 0. -/
def CpuState.Flat (c : CpuState) : Prop := ∀ (addr : Word) (i : Fin 6), i.val < 4 → c.linear addr i = addr

theorem CpuState.linear_add (c : CpuState) (a b : Word) (i : Fin 6) :
    c.linear (b + a) i = c.linear a i + b := by
  unfold CpuState.linear
  split
  · rw [BitVec.add_comm b, BitVec.add_assoc, BitVec.add_assoc, BitVec.add_comm b]
  · rw [BitVec.add_comm]

theorem word_byte_trunc (d : Width) (v : Word) : word (byte v) d.bytes = d.trunc v := by
  have h4 : d.bytes ≤ 4 := by cases d <;> decide
  apply ext_bytes
  intro i hi
  rw [byte_word _ _ _ hi, Width.trunc, Width.bits, byte_trunc _ hi]

theorem trunc_peek (d : Width) (f : Mem) (a : Word) : d.trunc (peek f a d.bytes) = peek f a d.bytes := by
  have h4 : d.bytes ≤ 4 := by cases d <;> decide
  rw [← word_byte_trunc]
  exact word_congr fun i hi => by rw [peek, byte_word _ _ _ (by omega), if_pos hi]

section Ram

variable {P : Type} [Bus P] [Ram P] {m m' : Machine P} {addr v data : Word} {len sreg : ℕ}

/-- Linear memory. -/
def Machine.mem (m : Machine P) : Mem := Ram.mem m.cpu.cr0 m.cpu.cr3 m.bus

/-- A read returns the bytes of memory, and changes none. -/
theorem swaddrRead_mem (h : swaddrRead addr len sreg m = .ok v m') :
    m'.cpu = m.cpu ∧ m'.ops = m.ops ∧ m'.mem = m.mem ∧ sreg < 4 ∧
      v = peek m.mem (m.cpu.linear addr (Fin.ofNat 6 sreg)) len := by
  obtain ⟨heq, hread⟩ := swaddrRead_ok h
  unfold readMem at hread
  split_ifs at hread with hl
  obtain ⟨r, hr, hv⟩ := Option.map_eq_some_iff.mp hread
  obtain ⟨rfl, hp⟩ := Prod.mk.inj hv
  obtain ⟨hload, hmem⟩ := Ram.read_ok hl.1 hr
  rw [hp] at hmem
  have hcpu : m'.cpu = m.cpu := by rw [heq]; rfl
  refine ⟨hcpu, by rw [heq]; rfl, ?_, hl.2, hload⟩
  rw [Machine.mem, hcpu]
  exact hmem

/-- A write stores the bytes. -/
theorem swaddrWrite_mem (h : swaddrWrite addr len data sreg m = .ok () m') :
    m'.cpu = m.cpu ∧ m'.ops = m.ops ∧ sreg < 4 ∧
      m'.mem = poke m.mem (m.cpu.linear addr (Fin.ofNat 6 sreg)) len data := by
  obtain ⟨heq, hwrite⟩ := swaddrWrite_ok h
  unfold writeMem at hwrite
  split_ifs at hwrite with hl
  obtain ⟨⟨u, p⟩, hr, hp⟩ := Option.map_eq_some_iff.mp hwrite
  have hmem := Ram.write_ok hl.1 hr
  have hp : p = m'.bus := hp
  rw [hp] at hmem
  have hcpu : m'.cpu = m.cpu := by rw [heq]; rfl
  refine ⟨hcpu, by rw [heq]; rfl, hl.2, ?_⟩
  rw [Machine.mem, hcpu]
  exact hmem

/-! ### What does not write -/

/-- Memory has these bytes. -/
def MemIs (f : Mem) (m : Machine P) : Prop := m.mem = f

variable {f : Mem}

omit [Bus P] [Ram P] in
theorem cr_setReg (m : Machine P) (d : Width) (i : Fin 8) (v : Word) :
    (m.setReg d i v).cpu.cr0 = m.cpu.cr0 ∧ (m.setReg d i v).cpu.cr3 = m.cpu.cr3 ∧
      (m.setReg d i v).bus = m.bus := by
  cases d <;> exact ⟨rfl, rfl, rfl⟩

@[simp] theorem Machine.mem_setReg (m : Machine P) (d : Width) (i : Fin 8) (v : Word) :
    (m.setReg d i v).mem = m.mem := by
  obtain ⟨h0, h3, hbus⟩ := cr_setReg m d i v
  rw [mem, h0, h3, hbus, mem]

instance : DecodeKept (P := P) (MemIs f) where
  setOperand _ _ := ⟨fun _ h => h⟩
  copyOperand _ _ := ⟨fun _ h => h⟩
  setType _ _ := ⟨fun _ h => h⟩
  setSize _ _ := ⟨fun _ h => h⟩
  setLoc _ _ := ⟨fun _ h => h⟩
  setOpSreg _ _ := ⟨fun _ h => h⟩
  setVal _ _ := ⟨fun _ h => h⟩
  setOpcode _ := ⟨fun _ h => h⟩

instance : RegsKept (P := P) (MemIs f) :=
  ⟨fun _ _ => ⟨fun _ h => h⟩, fun d i v => ⟨fun m h => (m.mem_setReg d i v).trans h⟩⟩

instance : FlagsKept (P := P) (MemIs f) := ⟨fun _ _ _ => ⟨fun _ h => h⟩⟩

instance : EipKept (P := P) (MemIs f) := ⟨fun _ => ⟨fun _ h => h⟩⟩

instance : SregKept (P := P) (MemIs f) := ⟨fun _ _ => ⟨fun _ h => h⟩, fun _ _ => ⟨fun _ h => h⟩⟩

instance (v : Word) : Kept (MemIs (P := P) f) (Machine.setEflags · v) := ⟨fun _ h => h⟩

instance : ReadKept (P := P) (MemIs f) where
  assertion := inferInstance
  lnaddrRead addr len := by
    refine ⟨fun m hm => ?_⟩
    unfold lnaddrRead
    by_cases hl : len = 1 ∨ len = 2 ∨ len = 4
    · rw [if_pos hl, read_bind_run, bind_run, bus, access]
      cases h : Bus.lnaddrRead m.cpu.cr0 m.cpu.cr3 addr len m.bus with
      | none => trivial
      | some r => exact (Ram.read_ok hl h).2.trans hm
    · rw [if_neg hl]
      trivial

/-- What such a command leaves in memory. -/
theorem mem_of_keeps {α : Type} {k : Cmd (Machine P) α} {a : α} [hk : Keeps (MemIs m.mem) k]
    (h : k m = .ok a m') : m'.mem = m.mem := by
  have hm := hk.ends m rfl
  rw [h] at hm
  exact hm

end Ram

end Nemu
