/-
# A processor with flat memory

The simplest bus: linear memory is 2^32 bytes of RAM, the I/O ports read 0, and
an interrupt request waits until it is acknowledged. It stands for the memory
in runs on fixed inputs.

Key definitions: `FlatBus`, `FlatBus.load`, `flatMachine`.
-/
import Nemu.Cpu.Exec

namespace Nemu

open Bytes Cmd

/-- RAM and one interrupt request. -/
structure FlatBus where
  mem : Word → Byte
  request : Option Byte

namespace FlatBus

/-- The bytes from `addr`. -/
def load (p : FlatBus) (addr : Word) (len : ℕ) : Word :=
  word (fun i => p.mem (addr + BitVec.ofNat 32 i)) len

def store (p : FlatBus) (addr : Word) (len : ℕ) (data : Word) : FlatBus where
  mem := fun a => if (a - addr).toNat < len then byte data (a - addr).toNat else p.mem a
  request := p.request

end FlatBus

instance : Bus FlatBus where
  lnaddrRead _ _ addr len := fun p => some ((p.load addr len).setWidth (8 * len), p)
  lnaddrWrite _ _ addr len data := fun p => some ((), p.store addr len data)
  initTLB := id
  pioRead _ _ := fun p => some (0, p)
  pioWrite _ _ _ := fun p => some ((), p)
  INTR := fun p => p.request.isSome
  i8259QueryIntr := fun p => p.request.getD 0
  i8259AckIntr := fun p => some ((), ⟨p.mem, none⟩)

/-- The processor after reset, with these registers and these bytes from
address 0 on. -/
def flatMachine (gpr : Fin 8 → Word) (code : List Byte) : Machine FlatBus where
  cpu :=
    { gpr := gpr
      eflags := 0
      eip := 0
      gdtr := ⟨0, 0⟩
      idtr := ⟨0, 0⟩
      sreg := fun _ => ⟨0, ⟨0, 0, 0, 0, 0⟩⟩
      cr0 := 0
      cr3 := 0 }
  ops :=
    { opcode := 0
      isOperandSize16 := false
      operand := fun _ => ⟨.reg, 0, 0, 0, 0⟩ }
  state := .running
  bus := ⟨fun a => code.getD a.toNat 0, none⟩
  assembly := ⟨0, fun _ => 0⟩

end Nemu
