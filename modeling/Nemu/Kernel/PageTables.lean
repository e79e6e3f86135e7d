/-
# The kernel's page tables

`kvm.c`, `mm.c` and `vmem.c`. `init_page` runs before paging, on physical
memory; it fills the directory through a moving pointer and the page tables
backwards, in a loop of `stosl`, `subl` and `jge` that is run here by the
emulator's own instructions. `init_mm` and `create_video_mapping` run under
these tables, so that each of their accesses is translated by the walk of the
emulator.

Memory is flat, and a write to physical address 0 is dropped as in
`hwaddr_write`. What else runs between the functions is any change that leaves
the entries alone.

Key definitions: `Layout`, `initPage`, `initMm`, `createVideoMapping`,
`translate`, `KernelTables`.
Key theorems: `run_initPage`, `KernelTables.translate_low`,
`KernelTables.translate_high`, `pageTables_map`.
-/
import Nemu.Cpu.FlatBus
import Nemu.Cpu.Frame
import Nemu.Memory.Paging

namespace Nemu

open Bytes Cmd Instr Paging

namespace PageTables

/-! ### Memory -/

/-- `hwaddr_write` to RAM. -/
def hwStore (m : Flat) (a len : ℕ) (v : Word) : Flat := if a = 0 then m else store m a len v

/-- RAM without paging and devices. -/
structure RamBus where
  mem : Flat

instance : Bus RamBus where
  lnaddrRead _ _ addr len := fun p => some ((load p.mem addr.toNat len).setWidth (8 * len), p)
  lnaddrWrite _ _ addr len data := fun p => some ((), ⟨hwStore p.mem addr.toNat len data⟩)
  initTLB := id
  pioRead _ _ := fun p => some (0, p)
  pioWrite _ _ _ := fun p => some ((), p)
  INTR := fun _ => false
  i8259QueryIntr := fun _ => 0
  i8259AckIntr := fun p => some ((), p)

/-- The memory that the walk reads. -/
def flatPhys : Phys Flat where
  read addr len m := some (load m addr.toNat len, m)
  write addr len data m := some (hwStore m addr.toNat len data)
  srand0 := id
  rand m := (0, m)

/-- The translation of an address by the two-level walk. -/
def translate (cr3 addr : Word) (m : Flat) : Option Word :=
  (walk flatPhys cr3 addr m).map fun r => physical addr r.1.2

/-! ### The tables -/

/-- `PHY_MEM`. -/
def physMem : ℕ := 128 * 1024 * 1024

def KOFFSET : Word := 0xC0000000

/-- `make_pde` and `make_pte`. -/
def makePde (addr : Word) : Word := addr &&& 0xfffff000#32 ||| 0x7
def makePte (addr : Word) : Word := addr &&& 0xfffff000#32 ||| 0x7

/-- Where the linker puts the four arrays, as physical addresses: page-aligned,
in memory, not at address 0, and apart from each other. -/
structure Layout where
  kpdir : ℕ
  kptable : ℕ
  updir : ℕ
  table : ℕ
  aligned : kpdir % 4096 = 0 ∧ kptable % 4096 = 0 ∧ updir % 4096 = 0 ∧ table % 4096 = 0
  pos : 0 < kpdir ∧ 0 < kptable ∧ 0 < updir ∧ 0 < table
  below : kpdir + 4096 ≤ physMem ∧ kptable + 131072 ≤ physMem ∧ updir + 4096 ≤ physMem ∧
    table + 4096 ≤ physMem
  apart : (kpdir + 4096 ≤ kptable ∨ kptable + 131072 ≤ kpdir) ∧
    (kpdir + 4096 ≤ updir ∨ updir + 4096 ≤ kpdir) ∧ (kpdir + 4096 ≤ table ∨ table + 4096 ≤ kpdir) ∧
    (kptable + 131072 ≤ updir ∨ updir + 4096 ≤ kptable) ∧
    (kptable + 131072 ≤ table ∨ table + 4096 ≤ kptable) ∧
    (updir + 4096 ≤ table ∨ table + 4096 ≤ updir)

/-! ### `init_page` -/

/-- A store of the C code, before paging. -/
def storeVal (a : ℕ) (v : Word) : Cmd (Machine RamBus) Unit :=
  write fun m => m.setBus ⟨hwStore m.bus.mem a 4 v⟩

/-- `n` bytes of zero. -/
def clear (m : Flat) (a n : ℕ) : Flat := fun x => if a ≤ x ∧ x < a + n then 0 else m x

/-- The first `n` rounds of the loop over the directory; what it returns is
`ptable`. -/
def fillPdes (pdir ptable : ℕ) : ℕ → Cmd (Machine RamBus) ℕ
  | 0 => pure ptable
  | n + 1 => do
    let ptable ← fillPdes pdir ptable n
    storeVal (pdir + 4 * n) (makePde (BitVec.ofNat 32 ptable))
    storeVal (pdir + 4 * (n + 768)) (makePde (BitVec.ofNat 32 ptable))
    return ptable + 4 * 1024

/-- `subl $4096, %eax`. -/
def subl : Cmd (Machine RamBus) Unit := do
  setRegOperand .l .dest rEAX
  write (·.setType .src .imm)
  write (·.setVal .src 4096)
  doSub .l

/-- A round, and whether `jge` is taken. -/
def fillStep : Cmd (Machine RamBus) Bool := do
  doStos .l
  subl
  read (Cc.test · .ge)

def fillLoop : ℕ → Cmd (Machine RamBus) Unit
  | 0 => outOfFuel
  | n + 1 => do
    let again ← fillStep
    if again then fillLoop n else pure ()

/-- The inline assembly, for at most `fuel` rounds; `edi` is `ptable - 1`. -/
def fillPtes (fuel ptable : ℕ) : Cmd (Machine RamBus) Unit := do
  write (·.setReg .l rEAX ((BitVec.ofNat 32 (physMem - 4096)) ||| 0x7))
  write (·.setReg .l rEDI (BitVec.ofNat 32 (ptable - 4)))
  write (·.setFlag .DF true)
  fillLoop fuel
  write (·.setFlag .DF false)

def initPage (L : Layout) (fuel : ℕ) : Cmd (Machine RamBus) Unit := do
  write fun m => m.setBus ⟨clear m.bus.mem L.kpdir (1024 * 4)⟩
  let ptable ← fillPdes L.kpdir L.kptable 32
  fillPtes fuel ptable
  write (·.setCr3 ((BitVec.ofNat 32 L.kpdir >>> 12) <<< 12))
  write fun m => m.setBus (Bus.initTLB m.bus)
  let cr0 ← read (·.cpu.cr0)
  write (·.setCr0 (cr0 ||| 1#32 <<< 31))

/-! ### `init_mm` and `create_video_mapping` -/

/-- A store through the walk, inside a page. -/
def vstore (cr3 va : Word) (len : ℕ) (v : Word) (m : Flat) : Option Flat := do
  let pa ← translate cr3 va m
  return hwStore m pa.toNat len v

/-- `memset(va, 0, n)`. -/
def vclear (cr3 va : Word) : ℕ → Flat → Option Flat
  | 0, m => some m
  | n + 1, m => do
    let m ← vclear cr3 va n m
    vstore cr3 (va + BitVec.ofNat 32 n) 1 0 m

/-- `memcpy(dst, src, n)`. -/
def vcopy (cr3 dst src : Word) : ℕ → Flat → Option Flat
  | 0, m => some m
  | n + 1, m => do
    let m ← vcopy cr3 dst src n m
    let pa ← translate cr3 (src + BitVec.ofNat 32 n) m
    vstore cr3 (dst + BitVec.ofNat 32 n) 1 ((m pa.toNat).setWidth 32) m

/-- The address of an array in the kernel. -/
def kernelVa (a : ℕ) : Word := BitVec.ofNat 32 a + KOFFSET

def initMm (L : Layout) (cr3 : Word) (m : Flat) : Option Flat := do
  let m ← vclear cr3 (kernelVa L.updir) (1024 * 4) m
  vcopy cr3 (kernelVa (L.updir + 4 * 768)) (kernelVa (L.kpdir + 4 * 768)) (32 * 4) m

/-- `ucr3`. -/
def ucr3 (L : Layout) : Word := (kernelVa L.updir - KOFFSET) &&& 0xfffff000#32

/-- `VMEM_ADDR` and `SCR_SIZE`. -/
def vmemAddr : ℕ := 0xa0000
def scrSize : ℕ := 320 * 200

/-- The first `n` rounds of the loop over `table`. -/
def fillVideo (L : Layout) (cr3 : Word) : ℕ → Flat → Option Flat
  | 0, m => some m
  | n + 1, m => do
    let m ← fillVideo L cr3 n m
    vstore cr3 (kernelVa (L.table + 4 * (vmemAddr / 2 ^ 12 % 1024 + n))) 4
      (makePte (BitVec.ofNat 32 (vmemAddr + 4096 * n))) m

def createVideoMapping (L : Layout) (cr3 : Word) (m : Flat) : Option Flat := do
  let m ← vclear cr3 (kernelVa L.table) (1024 * 4) m
  let m ← vstore cr3 (kernelVa (L.updir + 4 * (vmemAddr / 2 ^ 22 % 1024))) 4
    (makePde (kernelVa L.table - KOFFSET)) m
  fillVideo L cr3 (scrSize / 4096 + 1) m

/-! ### The walk in numbers -/

theorem toNat_pdeAddr (cr3 addr : Word) :
    (pdeAddr cr3 addr).toNat = cr3.toNat / 4096 * 4096 + 4 * (addr.toNat / 2 ^ 22) := by
  have ha := addr.isLt
  have hdir : ((addr >>> 22) <<< 2).toNat = 4 * (addr.toNat / 2 ^ 22) := by
    rw [BitVec.toNat_shiftLeft, BitVec.toNat_ushiftRight, Nat.shiftRight_eq_div_pow,
      Nat.shiftLeft_eq, Nat.mod_eq_of_lt (by omega), Nat.mul_comm]
  rw [pdeAddr, toNat_or_low (k := 12) (by rw [toNat_frame]; omega) (by rw [hdir]; omega), hdir,
    toNat_frame]

theorem toNat_pteAddr (pde addr : Word) :
    (pteAddr pde addr).toNat = pde.toNat / 4096 * 4096 + 4 * (addr.toNat / 4096 % 1024) := by
  have hpage : ((addr >>> 12 &&& 0x3ff#32) <<< 2).toNat = 4 * (addr.toNat / 4096 % 1024) := by
    rw [BitVec.toNat_shiftLeft, BitVec.toNat_and, BitVec.toNat_ushiftRight,
      Nat.shiftRight_eq_div_pow, show (0x3ff#32).toNat = 2 ^ 10 - 1 from rfl,
      Nat.and_two_pow_sub_one_eq_mod, Nat.shiftLeft_eq]
    omega
  rw [pteAddr, toNat_or_low (k := 12) (by rw [toNat_frame]; omega) (by rw [hpage]; omega), hpage,
    toNat_frame]

/-- An entry made from an address: its frame, and present. -/
theorem toNat_makePde (addr : Word) : (makePde addr).toNat = addr.toNat / 4096 * 4096 + 7 := by
  have hmask : (addr &&& 0xfffff000#32).toNat = addr.toNat / 4096 * 4096 := by
    rw [show (0xfffff000#32) = BitVec.allOnes 32 <<< 12 by decide, toNat_and_shl_ones]
    norm_num
  have h7 : (0x7 : Word).toNat = 7 := rfl
  rw [makePde, toNat_or_low (k := 12) (by rw [hmask]; omega) (by rw [h7]; norm_num), hmask, h7]

theorem present_iff (entry : Word) : present entry = true ↔ entry.toNat % 2 = 1 := by
  rw [present, BitVec.getLsbD, Nat.testBit_zero, decide_eq_true_eq]

/-- A walk that finds both entries present. -/
theorem translate_of_present {cr3 addr pde pte : Word} {m : Flat}
    (hpde : load m (cr3.toNat / 4096 * 4096 + 4 * (addr.toNat / 2 ^ 22)) 4 = pde)
    (hp : pde.toNat % 2 = 1)
    (hpte : load m (pde.toNat / 4096 * 4096 + 4 * (addr.toNat / 4096 % 1024)) 4 = pte)
    (hp' : pte.toNat % 2 = 1) : translate cr3 addr m = some (physical addr pte) := by
  have h1 : flatPhys.read (pdeAddr cr3 addr) 4 m = some (pde, m) := by
    rw [← hpde, ← toNat_pdeAddr]
    rfl
  have h2 : flatPhys.read (pteAddr pde addr) 4 m = some (pte, m) := by
    rw [← hpte, ← toNat_pteAddr]
    rfl
  have hw : walk flatPhys cr3 addr m = some ((pde, pte), m) := by
    simp only [walk, h1, h2, Option.bind_eq_bind, Option.bind_some, (present_iff pde).mpr hp,
      (present_iff pte).mpr hp', if_true]
  rw [translate, hw]
  rfl

/-! ### The kernel's tables -/

/-- The directory has the page tables of all of memory at both places, and
nothing else; entry `j` of the page tables is frame `j`. -/
structure KernelTables (L : Layout) (m : Flat) : Prop where
  pde : ∀ i < 1024, load m (L.kpdir + 4 * i) 4 =
    if i < 32 then makePde (BitVec.ofNat 32 (L.kptable + 4096 * i))
    else if 768 ≤ i ∧ i < 800 then makePde (BitVec.ofNat 32 (L.kptable + 4096 * (i - 768)))
    else 0
  pte : ∀ j < 32768, load m (L.kptable + 4 * j) 4 = BitVec.ofNat 32 (4096 * j + 7)

/-- What is loaded into CR3. -/
def kcr3 (L : Layout) : Word := (BitVec.ofNat 32 L.kpdir >>> 12) <<< 12

section Walk

variable {L : Layout} {m : Flat}

theorem toNat_kptable (L : Layout) {i : ℕ} (hi : i < 32) :
    (BitVec.ofNat 32 (L.kptable + 4096 * i)).toNat = L.kptable + 4096 * i := by
  have h := L.below.2.1
  rw [BitVec.toNat_ofNat]
  apply Nat.mod_eq_of_lt
  simp only [physMem] at h
  omega

theorem toNat_kcr3 (L : Layout) : (kcr3 L).toNat = L.kpdir := by
  have h := L.below.1
  have ha := L.aligned.1
  have hk : (BitVec.ofNat 32 L.kpdir).toNat = L.kpdir := by
    rw [BitVec.toNat_ofNat]
    apply Nat.mod_eq_of_lt
    simp only [physMem] at h
    omega
  rw [kcr3, show BitVec.ofNat 32 L.kpdir >>> 12 = pageFrame (BitVec.ofNat 32 L.kpdir) from rfl,
    toNat_frame, hk]
  omega

/-- A directory entry with a page table of all of memory translates to the
address in that page table. -/
theorem translate_of_pde {cr3 addr : Word} {k : ℕ} (hk : k < 32)
    (hpte : ∀ j < 32768, load m (L.kptable + 4 * j) 4 = BitVec.ofNat 32 (4096 * j + 7))
    (hpde : load m (cr3.toNat / 4096 * 4096 + 4 * (addr.toNat / 2 ^ 22)) 4 =
      makePde (BitVec.ofNat 32 (L.kptable + 4096 * k))) :
    translate cr3 addr m = some (BitVec.ofNat 32 (k * 2 ^ 22 + addr.toNat % 2 ^ 22)) := by
  have hal := L.aligned.2.1
  have hpn := toNat_makePde (BitVec.ofNat 32 (L.kptable + 4096 * k))
  rw [toNat_kptable L hk] at hpn
  set j := 1024 * k + addr.toNat / 4096 % 1024 with hj
  have hj' : j < 32768 := by omega
  have hjn : (BitVec.ofNat 32 (4096 * j + 7)).toNat = 4096 * j + 7 := by
    rw [BitVec.toNat_ofNat]
    exact Nat.mod_eq_of_lt (by omega)
  have haddr : L.kptable + 4 * j = (makePde (BitVec.ofNat 32 (L.kptable + 4096 * k))).toNat / 4096 *
      4096 + 4 * (addr.toNat / 4096 % 1024) := by
    rw [hpn]
    omega
  have hload := hpte j hj'
  rw [haddr] at hload
  rw [translate_of_present hpde (by rw [hpn]; omega) hload (by rw [hjn]; omega)]
  have hres : (BitVec.ofNat 32 (k * 2 ^ 22 + addr.toNat % 2 ^ 22)).toNat =
      k * 2 ^ 22 + addr.toNat % 2 ^ 22 := by
    rw [BitVec.toNat_ofNat]
    exact Nat.mod_eq_of_lt (by omega)
  refine congrArg some (BitVec.eq_of_toNat_eq ?_)
  rw [toNat_physical, hjn, hres]
  omega

/-- An address below `PHY_MEM` is its own translation. -/
theorem KernelTables.translate_low (h : KernelTables L m) {p : Word} (hp : p.toNat < physMem) :
    translate (kcr3 L) p m = some p := by
  simp only [physMem] at hp
  have hal := L.aligned.1
  have hpde := h.pde (p.toNat / 2 ^ 22) (by omega)
  rw [if_pos (by omega)] at hpde
  have hdir : (kcr3 L).toNat / 4096 * 4096 = L.kpdir := by
    rw [toNat_kcr3]
    omega
  rw [translate_of_pde (k := p.toNat / 2 ^ 22) (by omega) h.pte (by rw [hdir, hpde]),
    Nat.div_add_mod']
  simp

theorem toNat_add_KOFFSET {p : Word} (hp : p.toNat < physMem) :
    (KOFFSET + p).toNat = 768 * 2 ^ 22 + p.toNat := by
  simp only [physMem] at hp
  have hk : KOFFSET.toNat = 768 * 2 ^ 22 := rfl
  rw [BitVec.toNat_add, hk]
  exact Nat.mod_eq_of_lt (by omega)

/-- So is its image above `KOFFSET`, in any directory with these entries. -/
theorem translate_high_of_pde {cr3 : Word} {dir : ℕ} (hdir : cr3.toNat / 4096 * 4096 = dir)
    (hpde : ∀ i < 32, load m (dir + 4 * (768 + i)) 4 =
      makePde (BitVec.ofNat 32 (L.kptable + 4096 * i)))
    (hpte : ∀ j < 32768, load m (L.kptable + 4 * j) 4 = BitVec.ofNat 32 (4096 * j + 7))
    {p : Word} (hp : p.toNat < physMem) : translate cr3 (KOFFSET + p) m = some p := by
  have hn := toNat_add_KOFFSET hp
  simp only [physMem] at hp
  have hi : (KOFFSET + p).toNat / 2 ^ 22 = 768 + p.toNat / 2 ^ 22 := by omega
  have hoff : (KOFFSET + p).toNat % 2 ^ 22 = p.toNat % 2 ^ 22 := by omega
  rw [translate_of_pde (k := p.toNat / 2 ^ 22) (by omega) hpte
    (by rw [hdir, hi, hpde _ (by omega)]), hoff, Nat.div_add_mod']
  simp

theorem KernelTables.pde_high (h : KernelTables L m) {i : ℕ} (hi : i < 32) :
    load m (L.kpdir + 4 * (768 + i)) 4 = makePde (BitVec.ofNat 32 (L.kptable + 4096 * i)) := by
  rw [h.pde (768 + i) (by omega), if_neg (by omega), if_pos (by omega), Nat.add_sub_cancel_left]

theorem KernelTables.translate_high (h : KernelTables L m) {p : Word} (hp : p.toNat < physMem) :
    translate (kcr3 L) (KOFFSET + p) m = some p := by
  have hal := L.aligned.1
  have hdir : (kcr3 L).toNat / 4096 * 4096 = L.kpdir := by
    rw [toNat_kcr3]
    omega
  exact translate_high_of_pde hdir (fun i hi => h.pde_high hi) h.pte hp

/-- Every other address has no directory entry. -/
theorem KernelTables.not_present (h : KernelTables L m) {v : Word} (hlow : ¬ v.toNat < physMem)
    (hhigh : ¬ (KOFFSET.toNat ≤ v.toNat ∧ v.toNat < KOFFSET.toNat + physMem)) :
    present (load m (pdeAddr (kcr3 L) v).toNat 4) = false := by
  have hv := v.isLt
  have hk : KOFFSET.toNat = 768 * 2 ^ 22 := rfl
  have hal := L.aligned.1
  simp only [physMem, hk] at hlow hhigh
  have hdir : (kcr3 L).toNat / 4096 * 4096 = L.kpdir := by
    rw [toNat_kcr3]
    omega
  rw [toNat_pdeAddr, hdir, h.pde _ (by omega), if_neg (by omega), if_neg (by omega)]
  rfl

end Walk

/-! ### The loop over the entries -/

section Fill

variable {L : Layout} {m : Machine RamBus}

/-- Before the round for entry `j`. -/
structure AtEntry (L : Layout) (j : ℕ) (m : Machine RamBus) : Prop where
  eax : m.reg .l rEAX = BitVec.ofNat 32 (4096 * j + 7)
  edi : m.reg .l rEDI = BitVec.ofNat 32 (L.kptable + 4 * j)
  down : m.flag .DF = true
  flat : ∀ a, m.cpu.linear a 0 = a

/-- `stosl` downwards. -/
theorem run_stosl (hd : m.flag .DF = true) (hf : ∀ a, m.cpu.linear a 0 = a) :
    ∃ m', doStos .l m = .ok () m' ∧ m'.reg .l rEAX = m.reg .l rEAX ∧
      m'.reg .l rEDI = m.reg .l rEDI - 4 ∧ m'.flag .DF = true ∧
      m'.bus.mem = hwStore m.bus.mem (m.reg .l rEDI).toNat 4 (m.reg .l rEAX) ∧
      m'.cpu.linear = m.cpu.linear := by
  have hw : swaddrWrite (m.reg .l rEDI) 4 (m.reg .l rEAX) 0 m =
      .ok () (m.setBus ⟨hwStore m.bus.mem (m.reg .l rEDI).toNat 4 (m.reg .l rEAX)⟩) := by
    rw [swaddrWrite_run, writeMem, if_pos ⟨by decide, by decide⟩, show Fin.ofNat 6 0 = 0 from rfl, hf]
    rfl
  have hrun : doStos .l m = .ok () ((m.setBus
      ⟨hwStore m.bus.mem (m.reg .l rEDI).toNat 4 (m.reg .l rEAX)⟩).setReg .l rEDI
        (m.reg .l rEDI - 4)) := by
    unfold doStos
    rw [read_bind_run, read_bind_run, show Width.bytes .l = 4 from rfl, bind_ok hw]
    simp only [stepIndex, read_bind_run, Machine.flag_setBus, hd, if_true, write_run]
    rfl
  exact ⟨_, hrun, rfl, rfl, hd, rfl, rfl⟩

/-- The difference goes to `eax`, and `jge` is taken if it did not pass zero. -/
theorem run_subl (hm : (m.reg .l rEAX).msb = false) :
    ∃ m', subl m = .ok () m' ∧ m'.reg .l rEAX = m.reg .l rEAX - 4096 ∧
      m'.reg .l rEDI = m.reg .l rEDI ∧ m'.flag .DF = m.flag .DF ∧ m'.bus = m.bus ∧
      m'.cpu.linear = m.cpu.linear ∧ Cc.test m' .ge = !(m.reg .l rEAX - 4096).msb := by
  set e := m.reg .l rEAX with he
  have htrunc : Width.trunc .l (e - 4096) = e - 4096 := by
    simp [Width.trunc, Width.bits, Width.bytes]
  -- the operands are decoded, and then `eax` is written
  let m₂ := (((((m.setType .dest .reg).setLoc .dest (regNo rEAX)).setVal .dest e).setType .src
    .imm).setVal .src 4096).setReg .l rEAX (e - 4096)
  have hrun : subl m = setSubFlags .l (e.ult 4096) e 4096 (e - 4096) m₂ := by
    have h : subl m = setSubFlags .l (e.ult 4096) e 4096 (Width.trunc .l (e - 4096))
      ((((((m.setType .dest .reg).setLoc .dest (regNo rEAX)).setVal .dest e).setType .src
        .imm).setVal .src 4096).setReg .l rEAX (Width.trunc .l (e - 4096))) := rfl
    rw [h, htrunc]
  have hsub : setSubFlags .l (e.ult 4096) e 4096 (e - 4096) m₂ = .ok () (((((m₂.setFlag .CF
    (e.ult 4096)).setFlag .OF (Width.msb .l e != Width.msb .l 4096 &&
      Width.msb .l (e - 4096) == Width.msb .l 4096)).setFlag .SF (Width.msb .l (e - 4096))).setFlag
        .ZF (e - 4096 == 0)).setFlag .PF (parity (e - 4096))) := rfl
  refine ⟨_, hrun.trans hsub, ?_, rfl, ?_, rfl, rfl, ?_⟩
  · rfl
  · simp [m₂]
    rfl
  · have hmsb : ∀ x : Word, Width.msb .l x = x.msb := fun x => (BitVec.msb_eq_getLsbD_last x).symm
    have h4096 : (4096#32).msb = false := by decide
    simp [Cc.test, hmsb, hm, h4096]

/-- A round stores entry `j`, and the loop goes on unless that was entry 0. -/
theorem run_fillStep {j : ℕ} (hj : j < 32768) (h : AtEntry L j m) :
    ∃ m', fillStep m = .ok (decide (0 < j)) m' ∧
      m'.bus.mem = store m.bus.mem (L.kptable + 4 * j) 4 (BitVec.ofNat 32 (4096 * j + 7)) ∧
      (0 < j → AtEntry L (j - 1) m') := by
  have hb := L.below.2.1
  have hpos := L.pos.2.1
  simp only [physMem] at hb
  have hedi : (m.reg .l rEDI).toNat = L.kptable + 4 * j := by
    rw [h.edi, BitVec.toNat_ofNat]
    exact Nat.mod_eq_of_lt (by omega)
  have heax : (m.reg .l rEAX).toNat = 4096 * j + 7 := by
    rw [h.eax, BitVec.toNat_ofNat]
    exact Nat.mod_eq_of_lt (by omega)
  obtain ⟨m₁, hstos, heax₁, hedi₁, hdown₁, hmem₁, hlinear₁⟩ := run_stosl h.down h.flat
  have hmsb : (m₁.reg .l rEAX).msb = false := by
    rw [heax₁, BitVec.msb_eq_decide, heax]
    exact decide_eq_false (by omega)
  obtain ⟨m', hsub, heax', hedi', hdown', hbus', hlinear', hge⟩ := run_subl hmsb
  have hrun : fillStep m = .ok (Cc.test m' .ge) m' := by
    unfold fillStep
    rw [bind_ok hstos, bind_ok hsub]
    rfl
  refine ⟨m', ?_, ?_, fun hj' => ?_⟩
  · -- `4096 j + 7 - 4096` has its top bit clear exactly if there is another entry
    rw [hrun, hge, heax₁, BitVec.msb_eq_decide, BitVec.toNat_sub, heax, ← decide_not]
    have h4096 : (4096 : Word).toNat = 4096 := rfl
    congr 1
    rw [h4096]
    exact decide_eq_decide.mpr (by omega)
  · rw [hbus', hmem₁, hedi, h.eax, hwStore, if_neg (by omega)]
  · refine ⟨?_, ?_, ?_, ?_⟩
    · rw [heax', heax₁]
      apply BitVec.eq_of_toNat_eq
      rw [BitVec.toNat_sub, heax, BitVec.toNat_ofNat, show (4096 : Word).toNat = 4096 from rfl]
      omega
    · rw [hedi', hedi₁]
      apply BitVec.eq_of_toNat_eq
      rw [BitVec.toNat_sub, hedi, BitVec.toNat_ofNat, show (4 : Word).toNat = 4 from rfl]
      omega
    · rw [hdown', hdown₁]
    · rw [hlinear', hlinear₁]
      exact h.flat

/-- The loop, with fuel for its rounds, stores entries `j`, …, 0 and stops. -/
theorem run_fillLoop {fuel : ℕ} : ∀ {j : ℕ} {m : Machine RamBus}, j < 32768 → j < fuel →
    AtEntry L j m → ∃ m', fillLoop fuel m = .ok () m' ∧
      (∀ i ≤ j, load m'.bus.mem (L.kptable + 4 * i) 4 = BitVec.ofNat 32 (4096 * i + 7)) ∧
      ∀ x, ¬ (L.kptable ≤ x ∧ x < L.kptable + 4 * (j + 1)) → m'.bus.mem x = m.bus.mem x := by
  induction fuel with
  | zero => exact fun _ h => absurd h (Nat.not_lt_zero _)
  | succ fuel ih =>
    intro j m hj hfuel h
    obtain ⟨m₁, hstep, hmem, hnext⟩ := run_fillStep hj h
    have hself : load m₁.bus.mem (L.kptable + 4 * j) 4 = BitVec.ofNat 32 (4096 * j + 7) := by
      rw [hmem, load_store_self _ _ (by norm_num)]
      exact BitVec.and_allOnes
    have hother : ∀ x, ¬ (L.kptable + 4 * j ≤ x ∧ x < L.kptable + 4 * j + 4) →
        m₁.bus.mem x = m.bus.mem x := by
      intro x hx
      rw [hmem, store_of_not_mem hx]
    by_cases h0 : 0 < j
    · obtain ⟨m', hrun, hentries, hrest⟩ := ih (by omega) (by omega) (hnext h0)
      refine ⟨m', ?_, ?_, ?_⟩
      · rw [fillLoop, bind_ok hstep, decide_eq_true h0]
        exact hrun
      · intro i hi
        by_cases hij : i = j
        · subst hij
          rw [← hself]
          exact word_congr fun k hk => hrest _ (by omega)
        · exact hentries i (by omega)
      · intro x hx
        rw [hrest x (by omega), hother x (by omega)]
    · refine ⟨m₁, ?_, ?_, ?_⟩
      · rw [fillLoop, bind_ok hstep, decide_eq_false h0]
        rfl
      · intro i hi
        rw [show i = j by omega]
        exact hself
      · intro x hx
        exact hother x (by omega)

/-- The loop over the directory. -/
theorem run_fillPdes {pdir ptable : ℕ} (hpos : 0 < pdir) (m : Machine RamBus) :
    ∀ {n : ℕ}, n ≤ 32 → ∃ mem, fillPdes pdir ptable n m = .ok (ptable + 4096 * n) (m.setBus ⟨mem⟩) ∧
      (∀ i < 1024, load mem (pdir + 4 * i) 4 =
        if i < n then makePde (BitVec.ofNat 32 (ptable + 4096 * i))
        else if 768 ≤ i ∧ i < 768 + n then makePde (BitVec.ofNat 32 (ptable + 4096 * (i - 768)))
        else load m.bus.mem (pdir + 4 * i) 4) ∧
      ∀ x, ¬ (pdir ≤ x ∧ x < pdir + 4096) → mem x = m.bus.mem x := by
  intro n
  induction n with
  | zero =>
    intro _
    refine ⟨m.bus.mem, rfl, fun i hi => ?_, fun x hx => rfl⟩
    rw [if_neg (by omega), if_neg (by omega)]
  | succ n ih =>
    intro hn
    obtain ⟨mem, hrun, hentries, hrest⟩ := ih (by omega)
    set v := makePde (BitVec.ofNat 32 (ptable + 4096 * n)) with hv
    have hload : ∀ (mem : Flat) (a b : ℕ), load (store mem (pdir + 4 * a) 4 v) (pdir + 4 * b) 4 =
        if b = a then v else load mem (pdir + 4 * b) 4 := by
      intro mem a b
      by_cases hab : b = a
      · rw [if_pos hab, hab, load_store_self _ _ (by norm_num)]
        exact BitVec.and_allOnes
      · rw [if_neg hab, load_store_of_disjoint (by omega)]
    refine ⟨store (store mem (pdir + 4 * n) 4 v) (pdir + 4 * (n + 768)) 4 v, ?_, fun i hi => ?_,
      fun x hx => ?_⟩
    · rw [fillPdes, bind_ok hrun, show ptable + 4096 * (n + 1) = ptable + 4096 * n + 4 * 1024 by ring]
      simp only [storeVal, hwStore, write_bind_run, pure_run, if_neg (show ¬ pdir + 4 * n = 0 by omega),
        if_neg (show ¬ pdir + 4 * (n + 768) = 0 by omega)]
      rfl
    · rw [hload, hload, hentries i hi]
      by_cases hhigh : i = n + 768
      · rw [if_pos hhigh, if_neg (by omega), if_pos (by omega), hv,
          show i - 768 = n by omega]
      · by_cases hlow : i = n
        · rw [if_neg hhigh, if_pos hlow, if_pos (by omega), hv, hlow]
        · rw [if_neg hhigh, if_neg hlow]
          have h1 : i < n ↔ i < n + 1 := by omega
          have h2 : 768 ≤ i ∧ i < 768 + n ↔ 768 ≤ i ∧ i < 768 + (n + 1) := by omega
          simp only [h1, h2]
    · rw [store_of_not_mem (by omega), store_of_not_mem (by omega), hrest x hx]

theorem load_clear {m : Flat} {a b n : ℕ} (ha : a ≤ b) (hb : b + 4 ≤ a + n) :
    load (clear m a n) b 4 = 0 := by
  have h : load (clear m a n) b 4 = word (fun _ => 0) 4 :=
    word_congr fun i hi => if_pos (by omega)
  rw [h]
  decide

/-- `init_page` leaves the kernel's tables, loads the directory and turns paging on. -/
theorem run_initPage (L : Layout) {fuel : ℕ} (hfuel : 32768 ≤ fuel)
    (hf : ∀ a, m.cpu.linear a 0 = a) :
    ∃ m', initPage L fuel m = .ok () m' ∧ KernelTables L m'.bus.mem ∧ m'.cpu.cr3 = kcr3 L ∧
      m'.cpu.cr0.getLsbD 31 = true := by
  have hb := L.below
  have hpos := L.pos
  have hap := L.apart.1
  simp only [physMem] at hb
  set m₁ := m.setBus ⟨clear m.bus.mem L.kpdir (1024 * 4)⟩ with hm₁
  obtain ⟨mem, hpdes, hentries, hrest⟩ := @run_fillPdes _ L.kptable hpos.1 m₁ 32 le_rfl
  -- the last entry is filled first
  set m₂ := (((m₁.setBus ⟨mem⟩).setReg .l rEAX (BitVec.ofNat 32 (physMem - 4096) ||| 0x7)).setReg .l
    rEDI (BitVec.ofNat 32 (L.kptable + 4096 * 32 - 4))).setFlag .DF true with hm₂
  have hstart : AtEntry L 32767 m₂ := by
    refine ⟨?_, ?_, ?_, hf⟩
    · have h : m₂.reg .l rEAX = BitVec.ofNat 32 (physMem - 4096) ||| 0x7 := rfl
      rw [h]
      decide
    · have h : m₂.reg .l rEDI = BitVec.ofNat 32 (L.kptable + 4096 * 32 - 4) := rfl
      rw [h, show L.kptable + 4096 * 32 - 4 = L.kptable + 4 * 32767 by omega]
    · rw [hm₂, Machine.flag_setFlag, if_pos rfl]
  obtain ⟨m₃, hloop, hptes, hkeep⟩ :=
    run_fillLoop (j := 32767) (by norm_num) (Nat.lt_of_lt_of_le (by norm_num) hfuel) hstart
  have hrun : initPage L fuel m = .ok () (((m₃.setFlag .DF false).setCr3 (kcr3 L)).setCr0
      (m₃.cpu.cr0 ||| 1#32 <<< 31)) := by
    have hfill : fillPtes fuel (L.kptable + 4096 * 32) (m₁.setBus ⟨mem⟩) =
        .ok () (m₃.setFlag .DF false) := by
      unfold fillPtes
      rw [write_bind_run, write_bind_run, write_bind_run, ← hm₂, bind_ok hloop]
      rfl
    unfold initPage
    rw [write_bind_run, ← hm₁, bind_ok hpdes, bind_ok hfill]
    rfl
  refine ⟨_, hrun, ⟨fun i hi => ?_, fun i hi => hptes i (by omega)⟩, rfl, ?_⟩
  · -- the directory is beside the page tables
    have hsame : load m₃.bus.mem (L.kpdir + 4 * i) 4 = load mem (L.kpdir + 4 * i) 4 :=
      word_congr fun k hk => hkeep _ (by omega)
    calc
      load m₃.bus.mem (L.kpdir + 4 * i) 4 = load mem (L.kpdir + 4 * i) 4 := hsame
      _ = _ := hentries i hi
      _ = _ := by
        have h0 : load m₁.bus.mem (L.kpdir + 4 * i) 4 = 0 := load_clear (by omega) (by omega)
        rw [h0, show 768 + 32 = 800 from rfl]
  · have h : ∀ x : Word, (x ||| 1#32 <<< 31).getLsbD 31 = true := by
      intro x
      rw [BitVec.getLsbD_or, show (1#32 <<< 31).getLsbD 31 = true by decide, Bool.or_true]
    exact h _

end Fill

/-! ### Under the kernel's tables -/

section Mapped

variable {L : Layout} {m m' : Flat}

/-- The bytes of these addresses are the same. -/
def AgreeOn (R : ℕ → Prop) (m m' : Flat) : Prop := ∀ x, R x → m' x = m x

/-- The kernel's directory and page tables. -/
def kernelEntry (L : Layout) (x : ℕ) : Prop :=
  (L.kpdir ≤ x ∧ x < L.kpdir + 4096) ∨ (L.kptable ≤ x ∧ x < L.kptable + 131072)

/-- The entries of `updir` from `KOFFSET / PT_SIZE` on. -/
def userEntry (L : Layout) (x : ℕ) : Prop := L.updir + 3072 ≤ x ∧ x < L.updir + 3200

/-- The entry of `updir` for the video memory, and `table`. -/
def videoEntry (L : Layout) (x : ℕ) : Prop :=
  (L.updir ≤ x ∧ x < L.updir + 4) ∨ (L.table ≤ x ∧ x < L.table + 4096)

theorem AgreeOn.load {R : ℕ → Prop} (h : AgreeOn R m m') {a n : ℕ} (hR : ∀ i < n, R (a + i)) :
    load m' a n = load m a n := word_congr fun i hi => h _ (hR i hi)

theorem KernelTables.agree (h : KernelTables L m) (ha : AgreeOn (kernelEntry L) m m') :
    KernelTables L m' where
  pde i hi := by
    rw [ha.load fun k hk => .inl (by omega)]
    exact h.pde i hi
  pte j hj := by
    rw [ha.load fun k hk => .inr (by omega)]
    exact h.pte j hj

theorem kernelVa_add (a n : ℕ) : kernelVa a + BitVec.ofNat 32 n = KOFFSET + BitVec.ofNat 32 (a + n) := by
  rw [kernelVa, BitVec.ofNat_add, BitVec.add_comm (BitVec.ofNat 32 a), BitVec.add_assoc]

theorem toNat_phys {a : ℕ} (h : a < physMem) : (BitVec.ofNat 32 a).toNat = a := by
  simp only [physMem] at h
  rw [BitVec.toNat_ofNat]
  exact Nat.mod_eq_of_lt (by omega)

/-- What the kernel sees at the address of an array is the array. -/
theorem KernelTables.translate_kernelVa (h : KernelTables L m) {a n : ℕ} (ha : a + n < physMem) :
    translate (kcr3 L) (kernelVa a + BitVec.ofNat 32 n) m = some (BitVec.ofNat 32 (a + n)) := by
  rw [kernelVa_add]
  exact h.translate_high (by rw [toNat_phys ha]; exact ha)

theorem KernelTables.vstore (h : KernelTables L m) {a n : ℕ} (ha : a + n < physMem) (hpos : 0 < a)
    (len : ℕ) (v : Word) :
    vstore (kcr3 L) (kernelVa a + BitVec.ofNat 32 n) len v m = some (store m (a + n) len v) := by
  rw [PageTables.vstore, h.translate_kernelVa ha]
  simp only [Option.bind_eq_bind, Option.bind_some, toNat_phys ha, hwStore, if_neg (show ¬ a + n = 0 by omega)]
  rfl

/-- `memset` in memory that is no entry. -/
theorem KernelTables.vclear (h : KernelTables L m) {a : ℕ} (hpos : 0 < a) : ∀ {n : ℕ},
    a + n ≤ physMem → (∀ x, a ≤ x → x < a + n → ¬ kernelEntry L x) →
      vclear (kcr3 L) (kernelVa a) n m = some (clear m a n) ∧ KernelTables L (clear m a n) := by
  intro n hn hout
  refine ⟨?_, h.agree fun x hx => if_neg fun hin => hout x hin.1 hin.2 hx⟩
  induction n with
  | zero =>
    have h0 : clear m a 0 = m := funext fun x => if_neg (by omega)
    rw [h0]
    rfl
  | succ n ih =>
    have hk : KernelTables L (clear m a n) :=
      h.agree fun x hx => if_neg fun hin => hout x hin.1 (by omega) hx
    have hstep : store (clear m a n) (a + n) 1 0 = clear m a (n + 1) := by
      funext x
      unfold store clear
      by_cases hx : x = a + n
      · rw [if_pos (by omega), if_pos (by omega)]
        exact byte_zero _
      · rw [if_neg (by omega)]
        exact if_congr (by omega) rfl rfl
    rw [PageTables.vclear, ih (by omega) fun x hx hx' => hout x hx (by omega)]
    simp only [Option.bind_eq_bind, Option.bind_some]
    rw [hk.vstore (by omega) hpos, hstep]

/-- `n` bytes from `src` at `dst`. -/
def copy (m : Flat) (dst src n : ℕ) : Flat :=
  fun x => if dst ≤ x ∧ x < dst + n then m (src + (x - dst)) else m x

/-- `memcpy` to memory that is no entry. -/
theorem KernelTables.vcopy (h : KernelTables L m) {dst src : ℕ} (hpos : 0 < dst) : ∀ {n : ℕ},
    dst + n ≤ physMem → src + n ≤ physMem → (dst + n ≤ src ∨ src + n ≤ dst) →
      (∀ x, dst ≤ x → x < dst + n → ¬ kernelEntry L x) →
        vcopy (kcr3 L) (kernelVa dst) (kernelVa src) n m = some (copy m dst src n) := by
  intro n hd hs hsep hout
  induction n with
  | zero =>
    have h0 : copy m dst src 0 = m := funext fun x => if_neg (by omega)
    rw [h0]
    rfl
  | succ n ih =>
    have hk : KernelTables L (copy m dst src n) :=
      h.agree fun x hx => if_neg fun hin => hout x hin.1 (by omega) hx
    have hbyte : byte ((m (src + n)).setWidth 32) 0 = m (src + n) := by
      rw [byte_setWidth, if_pos rfl]
    have hstep : store (copy m dst src n) (dst + n) 1 ((m (src + n)).setWidth 32) =
        copy m dst src (n + 1) := by
      funext x
      unfold store copy
      by_cases hx : x = dst + n
      · rw [if_pos (by omega), if_pos (by omega), hx, Nat.sub_self, hbyte, Nat.add_sub_cancel_left]
      · rw [if_neg (by omega)]
        exact if_congr (by omega) rfl rfl
    have hsrc : copy m dst src n (src + n) = m (src + n) := if_neg (by omega)
    rw [PageTables.vcopy, ih (by omega) (by omega) (by omega) fun x hx hx' => hout x hx (by omega)]
    simp only [Option.bind_eq_bind, Option.bind_some]
    rw [hk.translate_kernelVa (by omega)]
    simp only [Option.bind_some]
    rw [toNat_phys (by omega), hsrc, hk.vstore (by omega) hpos, hstep]

/-- The entries that `init_mm` makes. -/
def UserTables (L : Layout) (m : Flat) : Prop :=
  ∀ i < 32, load m (L.updir + 4 * (768 + i)) 4 = makePde (BitVec.ofNat 32 (L.kptable + 4096 * i))

theorem UserTables.agree (h : UserTables L m) (ha : AgreeOn (userEntry L) m m') :
    UserTables L m' := by
  intro i hi
  rw [ha.load fun k hk => ⟨by omega, by omega⟩]
  exact h i hi

/-- `init_mm` copies the kernel's half of the directory. -/
theorem KernelTables.run_initMm (h : KernelTables L m) :
    ∃ m', initMm L (kcr3 L) m = some m' ∧ KernelTables L m' ∧ UserTables L m' := by
  have hb := L.below
  have hpos := L.pos
  have hap := L.apart
  simp only [physMem] at hb
  have hout : ∀ x, L.updir ≤ x → x < L.updir + 4096 → ¬ kernelEntry L x := by
    intro x hx hx' hk
    unfold kernelEntry at hk
    omega
  obtain ⟨hclear, hk⟩ := h.vclear (n := 4096) hpos.2.2.1 (by simp only [physMem]; omega) hout
  have hcopy := @KernelTables.vcopy _ _ hk (L.updir + 3072) (L.kpdir + 3072) (by omega) 128
    (by simp only [physMem]; omega) (by simp only [physMem]; omega) (by omega)
    fun x hx hx' => hout x (by omega) (by omega)
  refine ⟨copy (clear m L.updir 4096) (L.updir + 3072) (L.kpdir + 3072) 128, ?_, ?_, ?_⟩
  · rw [initMm, show 1024 * 4 = 4096 from rfl, show 4 * 768 = 3072 from rfl,
      show 32 * 4 = 128 from rfl, hclear]
    simp only [Option.bind_eq_bind, Option.bind_some]
    exact hcopy
  · exact hk.agree fun x hx => if_neg fun hin => hout x (by omega) (by omega) hx
  · intro i hi
    rw [← hk.pde_high hi]
    refine word_congr fun k hk => ?_
    unfold copy
    rw [if_pos (by omega), show L.kpdir + 3072 + (L.updir + 4 * (768 + i) + k - (L.updir + 3072)) =
      L.kpdir + 4 * (768 + i) + k by omega]

/-- The entries that `create_video_mapping` makes. -/
structure VideoTables (L : Layout) (m : Flat) : Prop where
  pde : load m L.updir 4 = makePde (BitVec.ofNat 32 L.table)
  pte : ∀ i < 16, load m (L.table + 4 * (160 + i)) 4 = makePte (BitVec.ofNat 32 (vmemAddr + 4096 * i))

theorem VideoTables.agree (h : VideoTables L m) (ha : AgreeOn (videoEntry L) m m') :
    VideoTables L m' where
  pde := by
    rw [ha.load fun k hk => .inl (by omega)]
    exact h.pde
  pte i hi := by
    rw [ha.load fun k hk => .inr (by omega)]
    exact h.pte i hi

/-- The loop of `create_video_mapping` stores its entries and changes nothing else. -/
theorem KernelTables.run_fillVideo (h : KernelTables L m) : ∀ {n : ℕ}, n ≤ 16 →
    ∃ m', fillVideo L (kcr3 L) n m = some m' ∧
      (∀ j < 1024, load m' (L.table + 4 * j) 4 =
        if 160 ≤ j ∧ j < 160 + n then makePte (BitVec.ofNat 32 (vmemAddr + 4096 * (j - 160)))
        else load m (L.table + 4 * j) 4) ∧
      ∀ x, ¬ (L.table ≤ x ∧ x < L.table + 4096) → m' x = m x := by
  have hb := L.below
  have hpos := L.pos
  have hap := L.apart
  simp only [physMem] at hb
  intro n
  induction n with
  | zero => exact fun _ => ⟨m, rfl, fun j _ => by rw [if_neg (by omega)], fun x _ => rfl⟩
  | succ n ih =>
    intro hn
    obtain ⟨m₁, hrun, hentries, hrest⟩ := ih (by omega)
    have hk : KernelTables L m₁ := by
      refine h.agree fun x hx => hrest x fun hin => ?_
      unfold kernelEntry at hx
      omega
    have hstore := hk.vstore (a := L.table + 4 * (160 + n)) (n := 0)
      (by simp only [physMem]; omega) (by omega) 4 (makePte (BitVec.ofNat 32 (vmemAddr + 4096 * n)))
    rw [BitVec.add_zero, Nat.add_zero] at hstore
    refine ⟨store m₁ (L.table + 4 * (160 + n)) 4 (makePte (BitVec.ofNat 32 (vmemAddr + 4096 * n))),
      ?_, ?_, ?_⟩
    · rw [fillVideo, hrun]
      simp only [Option.bind_eq_bind, Option.bind_some]
      rw [show vmemAddr / 2 ^ 12 % 1024 = 160 from rfl, hstore]
    · intro j hj
      by_cases hjn : j = 160 + n
      · rw [if_pos (by omega), hjn, Nat.add_sub_cancel_left, load_store_self _ _ (by norm_num)]
        exact BitVec.and_allOnes
      · rw [load_store_of_disjoint (by omega), hentries j hj]
        exact if_congr (by omega) rfl rfl
    · intro x hx
      rw [store_of_not_mem (by omega), hrest x hx]

theorem kernelVa_sub {a : ℕ} : kernelVa a - KOFFSET = BitVec.ofNat 32 a := by
  rw [kernelVa, BitVec.add_sub_cancel]

/-- `create_video_mapping` makes the table, names it in the directory, and
changes nothing else. -/
theorem KernelTables.createVideoMapping_spec (h : KernelTables L m) :
    ∃ m', createVideoMapping L (kcr3 L) m = some m' ∧
      (∀ j < 1024, load m' (L.table + 4 * j) 4 =
        if 160 ≤ j ∧ j < 176 then makePte (BitVec.ofNat 32 (vmemAddr + 4096 * (j - 160))) else 0) ∧
      load m' L.updir 4 = makePde (BitVec.ofNat 32 L.table) ∧
      ∀ x, ¬ (L.table ≤ x ∧ x < L.table + 4096) → ¬ (L.updir ≤ x ∧ x < L.updir + 4) →
        m' x = m x := by
  have hb := L.below
  have hpos := L.pos
  have hap := L.apart
  simp only [physMem] at hb
  have hout : ∀ x, L.table ≤ x → x < L.table + 4096 → ¬ kernelEntry L x := by
    intro x hx hx' hk
    unfold kernelEntry at hk
    omega
  obtain ⟨hclear, hk⟩ := h.vclear (n := 4096) hpos.2.2.2 (by simp only [physMem]; omega) hout
  have hstore := hk.vstore (a := L.updir) (n := 0) (by simp only [physMem]; omega) hpos.2.2.1 4
    (makePde (BitVec.ofNat 32 L.table))
  rw [BitVec.add_zero, Nat.add_zero] at hstore
  set m₁ := store (clear m L.table 4096) L.updir 4 (makePde (BitVec.ofNat 32 L.table)) with hm₁
  have hk₁ : KernelTables L m₁ := by
    refine hk.agree fun x hx => store_of_not_mem fun hin => ?_
    unfold kernelEntry at hx
    omega
  have hzero : ∀ j < 1024, load m₁ (L.table + 4 * j) 4 = 0 := by
    intro j hj
    rw [hm₁, load_store_of_disjoint (by omega)]
    refine (word_congr fun k hk => ?_).trans (show word (fun _ => 0#8) 4 = 0 by decide)
    exact if_pos (by omega)
  obtain ⟨m', hfill, hptes, hrest⟩ := hk₁.run_fillVideo le_rfl
  refine ⟨m', ?_, fun j hj => ?_, ?_, fun x hx hx' => ?_⟩
  · rw [createVideoMapping, show 1024 * 4 = 4096 from rfl, hclear]
    simp only [Option.bind_eq_bind, Option.bind_some]
    rw [show L.updir + 4 * (vmemAddr / 2 ^ 22 % 1024) = L.updir from rfl, kernelVa_sub, hstore]
    exact hfill
  · rw [hptes j hj, hzero j hj]
  · rw [← BitVec.and_allOnes (x := makePde (BitVec.ofNat 32 L.table))]
    have hload := @load_store_self (clear m L.table 4096) L.updir 4 (by norm_num)
      (makePde (BitVec.ofNat 32 L.table))
    exact (word_congr fun k hk => hrest _ (by omega)).trans hload
  · rw [hrest x hx, hm₁, store_of_not_mem hx']
    exact if_neg hx

/-- `create_video_mapping` adds its entries to the directory. -/
theorem KernelTables.run_createVideoMapping (h : KernelTables L m) (hu : UserTables L m) :
    ∃ m', createVideoMapping L (kcr3 L) m = some m' ∧ KernelTables L m' ∧ UserTables L m' ∧
      VideoTables L m' := by
  have hap := L.apart
  obtain ⟨m', hrun, hptes, hpde, hrest⟩ := h.createVideoMapping_spec
  refine ⟨m', hrun, h.agree fun x hx => ?_, hu.agree fun x hx => ?_, hpde, fun i hi => ?_⟩
  · unfold kernelEntry at hx
    exact hrest x (by omega) (by omega)
  · unfold userEntry at hx
    exact hrest x (by omega) (by omega)
  · rw [hptes _ (by omega), if_pos (by omega), Nat.add_sub_cancel_left]

/-! ### The user directory -/

theorem toNat_ucr3 (L : Layout) : (ucr3 L).toNat = L.updir := by
  have hb := L.below.2.2.1
  have ha := L.aligned.2.2.1
  rw [ucr3, kernelVa_sub, show (0xfffff000#32) = BitVec.allOnes 32 <<< 12 by decide,
    toNat_and_shl_ones, toNat_phys (by simp only [physMem] at hb ⊢; omega)]
  omega

/-- The user directory has the kernel's half. -/
theorem UserTables.translate_high (hu : UserTables L m) (h : KernelTables L m) {p : Word}
    (hp : p.toNat < physMem) : translate (ucr3 L) (KOFFSET + p) m = some p := by
  have hal := L.aligned.2.2.1
  have hdir : (ucr3 L).toNat / 4096 * 4096 = L.updir := by
    rw [toNat_ucr3]
    omega
  exact translate_high_of_pde hdir hu h.pte hp

/-- The video memory is mapped to itself. -/
theorem VideoTables.translate (h : VideoTables L m) {v : Word} (hlow : vmemAddr ≤ v.toNat)
    (hhigh : v.toNat < vmemAddr + scrSize) : translate (ucr3 L) v m = some v := by
  have hal := L.aligned
  have hb := L.below.2.2.2
  simp only [vmemAddr, scrSize] at hlow hhigh
  simp only [physMem] at hb
  obtain ⟨i, hi⟩ : ∃ i, v.toNat / 4096 = 160 + i := ⟨v.toNat / 4096 - 160, by omega⟩
  have hpde := toNat_makePde (BitVec.ofNat 32 L.table)
  rw [toNat_phys (by simp only [physMem]; omega)] at hpde
  have hpte : (makePte (BitVec.ofNat 32 (vmemAddr + 4096 * i))).toNat = vmemAddr + 4096 * i + 7 := by
    rw [makePte, ← makePde, toNat_makePde, BitVec.toNat_ofNat, Nat.mod_eq_of_lt]
    · simp only [vmemAddr]
      omega
    · simp only [vmemAddr]
      omega
  have hload := h.pte i (by omega)
  rw [@PageTables.translate_of_present _ _ (makePde (BitVec.ofNat 32 L.table))
    (makePte (BitVec.ofNat 32 (vmemAddr + 4096 * i)))]
  · refine congrArg some (BitVec.eq_of_toNat_eq ?_)
    rw [toNat_physical, hpte, vmemAddr]
    omega
  · rw [toNat_ucr3, show L.updir / 4096 * 4096 + 4 * (v.toNat / 2 ^ 22) = L.updir by omega]
    exact h.pde
  · rw [hpde]
    omega
  · rw [hpde, show (L.table / 4096 * 4096 + 7) / 4096 * 4096 + 4 * (v.toNat / 4096 % 1024) =
      L.table + 4 * (160 + i) by omega]
    exact hload
  · rw [hpte, vmemAddr]
    omega

end Mapped

/-! ### What the tables map -/

/-- An address without a directory entry. -/
def NotPresent (cr3 addr : Word) (m : Flat) : Prop :=
  present (load m (pdeAddr cr3 addr).toNat 4) = false

/-- Every physical address is mapped at its own place and above `KOFFSET`, and
nothing else is. -/
structure KernelMap (cr3 : Word) (m : Flat) : Prop where
  low : ∀ p : Word, p.toNat < physMem → translate cr3 p m = some p
  high : ∀ p : Word, p.toNat < physMem → translate cr3 (KOFFSET + p) m = some p
  other : ∀ v : Word, ¬ v.toNat < physMem →
    ¬ (KOFFSET.toNat ≤ v.toNat ∧ v.toNat < KOFFSET.toNat + physMem) → NotPresent cr3 v m

/-- The user directory maps physical memory above `KOFFSET` and the video memory
at its own place. -/
structure UserMap (cr3 : Word) (m : Flat) : Prop where
  high : ∀ p : Word, p.toNat < physMem → translate cr3 (KOFFSET + p) m = some p
  video : ∀ v : Word, vmemAddr ≤ v.toNat → v.toNat < vmemAddr + scrSize → translate cr3 v m = some v

/-- `init_page` maps the kernel; then, with whatever runs in between that leaves
the entries alone, `init_mm` and `create_video_mapping` map the user directory. -/
theorem pageTables_map (L : Layout) {fuel : ℕ} (hfuel : 32768 ≤ fuel) (m : Machine RamBus)
    (hflat : ∀ a, m.cpu.linear a 0 = a) :
    ∃ m₁, initPage L fuel m = .ok () m₁ ∧ m₁.cpu.cr0.getLsbD 31 = true ∧
      KernelMap m₁.cpu.cr3 m₁.bus.mem ∧
      ∀ mem, AgreeOn (kernelEntry L) m₁.bus.mem mem →
        ∃ mem₁, initMm L m₁.cpu.cr3 mem = some mem₁ ∧
          ∀ mem₂, AgreeOn (fun x => kernelEntry L x ∨ userEntry L x) mem₁ mem₂ →
            ∃ mem₃, createVideoMapping L m₁.cpu.cr3 mem₂ = some mem₃ ∧
              ∀ mem₄, AgreeOn (fun x => kernelEntry L x ∨ userEntry L x ∨ videoEntry L x) mem₃ mem₄ →
                KernelMap m₁.cpu.cr3 mem₄ ∧ UserMap (ucr3 L) mem₄ := by
  have hmap : ∀ {m : Flat}, KernelTables L m → KernelMap (kcr3 L) m := fun h =>
    ⟨fun p hp => h.translate_low hp, fun p hp => h.translate_high hp,
      fun v hlow hhigh => h.not_present hlow hhigh⟩
  obtain ⟨m₁, hrun, hk₁, hcr3, hpg⟩ := run_initPage L hfuel hflat
  rw [← hcr3] at hmap
  refine ⟨m₁, hrun, hpg, hmap hk₁, fun mem ha => ?_⟩
  rw [hcr3]
  obtain ⟨mem₁, hmm, hk₂, hu₂⟩ := (hk₁.agree ha).run_initMm
  refine ⟨mem₁, hmm, fun mem₂ ha₂ => ?_⟩
  have hk₃ := hk₂.agree fun x hx => ha₂ x (.inl hx)
  have hu₃ := hu₂.agree fun x hx => ha₂ x (.inr hx)
  obtain ⟨mem₃, hvideo, hk₄, hu₄, hv₄⟩ := hk₃.run_createVideoMapping hu₃
  refine ⟨mem₃, hvideo, fun mem₄ ha₄ => ?_⟩
  have hk₅ := hk₄.agree fun x hx => ha₄ x (.inl hx)
  have hu₅ := hu₄.agree fun x hx => ha₄ x (.inr (.inl hx))
  have hv₅ := hv₄.agree fun x hx => ha₄ x (.inr (.inr hx))
  rw [← hcr3]
  exact ⟨hmap hk₅, fun p hp => hu₅.translate_high hk₅ hp, fun v hlow hhigh => hv₅.translate hlow hhigh⟩

/-- The four arrays one after the other from 1 MB on. -/
def plainLayout : Layout where
  kpdir := 0x100000
  kptable := 0x101000
  updir := 0x121000
  table := 0x122000
  aligned := by decide
  pos := by decide
  below := by decide
  apart := by decide

/-- A processor with zeroed memory. -/
def ramMachine : Machine RamBus :=
  ⟨(flatMachine (fun _ => 0) []).cpu, (flatMachine (fun _ => 0) []).ops, .running, ⟨fun _ => 0⟩, ⟨0, fun _ => 0⟩⟩

theorem pageTables_map_plain :
    ∃ m₁, initPage plainLayout 32768 ramMachine = .ok () m₁ ∧
      translate m₁.cpu.cr3 0xc0100123 m₁.bus.mem = some 0x100123 := by
  obtain ⟨m₁, hrun, -, hmap, -⟩ := pageTables_map plainLayout le_rfl ramMachine fun a => rfl
  exact ⟨m₁, hrun, hmap.high 0x100123 (by decide)⟩

end PageTables

end Nemu
