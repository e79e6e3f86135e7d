/-
# Physical accesses

`memory.c`, the part below paging: an access goes to the device whose window
holds its first byte, or to the caches. A write to physical address 0 is
dropped.

Key definitions: `Memory`, `hwaddrRead`, `hwaddrWrite`, `MemOp`, `runMem`.
-/
import Nemu.Memory.Cache
import Nemu.Memory.Mmio

namespace Nemu

open Bytes

/-- What lies behind the physical addresses. -/
structure Memory (δ : Type) where
  cache : Hier
  mmio : Mmio δ

variable {δ : Type} (junk : ℕ → Byte) (oob : ℕ → ℕ → Byte)

/-- `hwaddr_read`. -/
def hwaddrRead (m : Memory δ) (addr : Word) (len : ℕ) : Option (Word × Memory δ) :=
  match isMmio m.mmio addr with
  | none => do
    let (v, c) ← cache1Read junk oob m.cache addr len
    return (v &&& low len, { m with cache := c })
  | some p => do
    let (v, d) ← mmioRead m.mmio addr len p
    return (v &&& low len, { m with mmio := d })

/-- `hwaddr_write`. -/
def hwaddrWrite (m : Memory δ) (addr : Word) (len : ℕ) (data : Word) : Option (Memory δ) :=
  if addr = 0 then some m
  else match isMmio m.mmio addr with
    | none => do
      let c ← cache1Write junk oob m.cache addr len data
      return { m with cache := c }
    | some p => do
      let d ← mmioWrite m.mmio addr len data p
      return { m with mmio := d }

/-- A read leaves the maps. -/
theorem maps_hwaddrRead {m m' : Memory δ} {a v : Word} {l : ℕ}
    (h : hwaddrRead junk oob m a l = some (v, m')) : m'.mmio.maps = m.mmio.maps := by
  unfold hwaddrRead at h
  cases hm : isMmio m.mmio a with
  | none =>
    rw [hm] at h
    obtain ⟨_, -, hr⟩ := Option.bind_eq_some_iff.mp h
    obtain ⟨-, rfl⟩ := Prod.mk.inj (Option.some.inj hr)
    rfl
  | some p =>
    rw [hm] at h
    obtain ⟨⟨w, d⟩, hd, hr⟩ := Option.bind_eq_some_iff.mp h
    obtain ⟨-, rfl⟩ := Prod.mk.inj (Option.some.inj hr)
    unfold mmioRead at hd
    split_ifs at hd
    obtain ⟨_, -, hr⟩ := Option.bind_eq_some_iff.mp hd
    obtain ⟨-, rfl⟩ := Prod.mk.inj (Option.some.inj hr)
    rfl

/-- And a write. -/
theorem maps_hwaddrWrite {m m' : Memory δ} {a data : Word} {l : ℕ}
    (h : hwaddrWrite junk oob m a l data = some m') : m'.mmio.maps = m.mmio.maps := by
  unfold hwaddrWrite at h
  split_ifs at h
  · rw [Option.some.inj h]
  · cases hm : isMmio m.mmio a with
    | none =>
      rw [hm] at h
      obtain ⟨_, -, hr⟩ := Option.bind_eq_some_iff.mp h
      rw [← Option.some.inj hr]
    | some p =>
      rw [hm] at h
      obtain ⟨d, hd, hr⟩ := Option.bind_eq_some_iff.mp h
      obtain rfl := Option.some.inj hr
      unfold mmioWrite at hd
      split_ifs at hd
      obtain ⟨_, -, hr⟩ := Option.bind_eq_some_iff.mp hd
      rw [← Option.some.inj hr]

/-- `restart`'s part: `init_cache` and `init_ddr3`. -/
def initMemory (m : Memory δ) : Memory δ :=
  { m with cache := { initCache m.cache with dram := m.cache.dram.initDdr3 } }

/-! ### Runs -/

inductive MemOp where
  | read (addr : Word) (len : ℕ)
  | write (addr : Word) (len : ℕ) (data : Word)

/-- A sequence of accesses; the values its reads return, in order. -/
def runMem (m : Memory δ) : List MemOp → Option (List Word × Memory δ)
  | [] => some ([], m)
  | .read a len :: ops => do
    let (v, m) ← hwaddrRead junk oob m a len
    let (vs, m) ← runMem m ops
    return (v :: vs, m)
  | .write a len data :: ops => do
    let m ← hwaddrWrite junk oob m a len data
    runMem m ops

end Nemu
