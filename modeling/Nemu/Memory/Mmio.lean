/-
# Memory-mapped I/O

`mmio.c`: up to 8 maps, each a window of physical addresses backed by a piece
of one pool of 256 KB and served by a callback of its device. The callbacks
act on the devices' state, whatever it is (`δ`).

Key definitions: `Mmio`, `addMmioMap`, `isMmio`, `mmioRead`, `mmioWrite`.
-/
import Nemu.Lib.Bytes

namespace Nemu

open Bytes

/-- `MMIO_t`; `space` is the index of `mmio_space` in the pool. -/
structure MmioMap (δ : Type) where
  low : Word
  high : Word
  space : ℕ
  callback : Word → ℕ → Bool → δ → Option δ

/-- `maps`, `mmio_space_pool` and the devices behind them. -/
structure Mmio (δ : Type) where
  maps : List (MmioMap δ)
  pool : ℕ → Byte
  freeIndex : ℕ
  dev : δ

variable {δ : Type}

/-- `add_mmio_map`: the new map's window and its place in the pool. -/
def addMmioMap (m : Mmio δ) (addr : Word) (len : ℕ)
    (callback : Word → ℕ → Bool → δ → Option δ) : Option (ℕ × Mmio δ) :=
  if m.maps.length < 8 ∧ m.freeIndex + len ≤ 256 * 1024 then
    some (m.freeIndex, { m with
      maps := m.maps ++ [⟨addr, addr + BitVec.ofNat 32 len - 1, m.freeIndex, callback⟩]
      freeIndex := m.freeIndex + len })
  else none

/-- `is_mmio`: the first map whose window holds the address. -/
def isMmio (m : Mmio δ) (addr : Word) : Option (MmioMap δ) :=
  m.maps.find? fun p => decide (p.low ≤ addr ∧ addr ≤ p.high)

/-- `mmio_read`. -/
def mmioRead (m : Mmio δ) (addr : Word) (len : ℕ) (p : MmioMap δ) : Option (Word × Mmio δ) :=
  if len = 1 ∨ len = 2 ∨ len = 4 then do
    let data := word (fun i => m.pool (p.space + (addr - p.low).toNat + i)) 4 &&& low len
    let dev ← p.callback addr len false m.dev
    return (data, { m with dev := dev })
  else none

/-- `mmio_write`: every byte of the mask it builds is set, so `len` bytes are
copied. -/
def mmioWrite (m : Mmio δ) (addr : Word) (len : ℕ) (data : Word) (p : MmioMap δ) :
    Option (Mmio δ) :=
  if len = 1 ∨ len = 2 ∨ len = 4 then do
    let base := p.space + (addr - p.low).toNat
    let pool := fun i =>
      if base ≤ i ∧ i < base + len ∧ byte (low len) (i - base) ≠ 0 then byte data (i - base)
      else m.pool i
    let dev ← p.callback addr len true m.dev
    return { m with pool := pool, dev := dev }
  else none

/-- A write stores into the pool and calls the device. -/
theorem mmioWrite_eq (m : Mmio δ) (addr : Word) {len : ℕ} (data : Word) (p : MmioMap δ)
    (h : len = 1 ∨ len = 2 ∨ len = 4) :
    mmioWrite m addr len data p = (p.callback addr len true m.dev).map fun dev =>
      { m with pool := store m.pool (p.space + (addr - p.low).toNat) len data, dev := dev } := by
  have hmask : ∀ i < len, byte (low len) i ≠ 0 := by
    intro i hi hzero
    have hbit : (byte (low len) i).getLsbD 0 = true := by
      rw [getLsbD_byte, getLsbD_low (by omega)]
      simpa using by omega
    rw [hzero] at hbit
    exact nomatch hbit
  have hpool : ∀ base : ℕ, (fun i => if base ≤ i ∧ i < base + len ∧ byte (low len) (i - base) ≠ 0
      then byte data (i - base) else m.pool i) = store m.pool base len data := by
    intro base
    funext i
    unfold store
    refine if_congr ?_ rfl rfl
    exact ⟨fun hi => ⟨hi.1, hi.2.1⟩, fun hi => ⟨hi.1, hi.2, hmask _ (by omega)⟩⟩
  unfold mmioWrite
  rw [if_pos h]
  simp only [hpool]
  cases p.callback addr len true m.dev <;> rfl

end Nemu
