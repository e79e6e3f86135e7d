/-
# The screen and the video memory

`vga.c`: the window of the VGA adapter, the flags of the lines that were written,
and `update_screen`, which draws the lines whose flag is set. A pixel of the
200 rows of 320 bytes is a block of 2×2 bytes of `pixel_buf`. What SDL does with
that buffer, the palette and the ports are left out.

The callback of the window sets the flag of the line in which a write starts. A
write that goes on in the next line leaves the flag of that one as it was. A
guest write that crosses a page is two writes to the window, and if one of them
has three bytes the assertion of `mmio_write` fails.

Key definitions: `Screen`, `updateScreen`, `VgaOp.pieces`, `Screen.Current`,
`Screen.Covers`.
Key theorems: `drawLines_spec`, `writes_spec`, `step_current_iff`, `screen_iff`.
-/
import Nemu.Memory.Mmio
import Nemu.Memory.Paging
import Mathlib.Data.Nat.Notation
import Mathlib.Logic.Function.Basic
import Mathlib.Tactic.Common

namespace Nemu

open Bytes

/-- `line_dirty` and `vmem_dirty`. -/
structure Vga where
  lineDirty : ℕ → Bool
  vmemDirty : Bool

/-- `vga_vmem_io_handler`. -/
def vgaVmemIoHandler (addr : Word) (_len : ℕ) (isWrite : Bool) (v : Vga) : Option Vga :=
  let line := (addr - 0xa0000).toNat / 320
  if isWrite = true ∧ line < 200 then
    some ⟨Function.update v.lineDirty line true, true⟩
  else some v

/-- `pixel_buf`, by row and column. -/
abbrev PixelBuf : Type := ℕ → ℕ → Byte

/-- The pool with the video memory at its start, the flags and the pixels. -/
structure Screen where
  pool : ℕ → Byte
  vga : Vga
  pixelBuf : PixelBuf

/-- The maps after `init_vga`, which is the only call of `add_mmio_map`. -/
def Screen.mmio (s : Screen) : Mmio Vga :=
  ⟨[⟨0xa0000, 0xbffff, 0, vgaVmemIoHandler⟩], s.pool, 0x20000, s.vga⟩

theorem initVga_mmio (s : Screen) :
    addMmioMap ⟨[], s.pool, 0, s.vga⟩ 0xa0000 0x20000 vgaVmemIoHandler = some (0, s.mmio) := by
  have hhigh : (0xa0000 + BitVec.ofNat 32 0x20000 - 1 : Word) = 0xbffff := by decide
  rw [addMmioMap, if_pos ⟨show 0 < 8 by decide, show 0 + 0x20000 ≤ 256 * 1024 by decide⟩, hhigh]
  simp [Screen.mmio]

/-! ### Drawing -/

/-- `draw_pixel`; `none` where the assertion fails. -/
def drawPixel (x y : ℕ) (colorIdx : Byte) (buf : PixelBuf) : Option PixelBuf :=
  if x < 640 ∧ y < 400 then some (Function.update buf y (Function.update (buf y) x colorIdx)) else none

/-- The body of the loop over the columns. -/
def drawBlock (i j : ℕ) (colorIdx : Byte) (buf : PixelBuf) : Option PixelBuf := do
  let buf ← drawPixel (2 * j) (2 * i) colorIdx buf
  let buf ← drawPixel (2 * j) (2 * i + 1) colorIdx buf
  let buf ← drawPixel (2 * j + 1) (2 * i) colorIdx buf
  drawPixel (2 * j + 1) (2 * i + 1) colorIdx buf

/-- The loop over the columns of line `i`, for the first so many. -/
def drawLine (vmem : ℕ → Byte) (i : ℕ) : ℕ → PixelBuf → Option PixelBuf
  | 0, buf => some buf
  | j + 1, buf => do
    let buf ← drawLine vmem i j buf
    drawBlock i j (vmem (320 * i + j)) buf

/-- The loop over the lines, for the first so many. -/
def drawLines (vmem : ℕ → Byte) (lineDirty : ℕ → Bool) : ℕ → PixelBuf → Option PixelBuf
  | 0, buf => some buf
  | i + 1, buf => do
    let buf ← drawLines vmem lineDirty i buf
    if lineDirty i then drawLine vmem i 320 buf else some buf

/-- `do_update_screen_graphic_mode`. -/
def doUpdateScreenGraphicMode (s : Screen) : Option Screen := do
  let buf ← drawLines s.pool s.vga.lineDirty 200 s.pixelBuf
  return { s with pixelBuf := buf }

/-- `update_screen`. -/
def updateScreen (s : Screen) : Option Screen :=
  if s.vga.vmemDirty then do
    let s ← doUpdateScreenGraphicMode s
    return { s with vga := ⟨fun i => if i < 200 then false else s.vga.lineDirty i, false⟩ }
  else some s

/-- One byte is drawn. -/
theorem drawPixel_spec {x y : ℕ} (hx : x < 640) (hy : y < 400) (c : Byte) (buf : PixelBuf) :
    ∃ buf', drawPixel x y c buf = some buf' ∧
      ∀ y' x', buf' y' x' = if y' = y ∧ x' = x then c else buf y' x' := by
  refine ⟨_, if_pos ⟨hx, hy⟩, fun y' x' => ?_⟩
  by_cases h : y' = y
  · subst h
    simp [Function.update_apply]
  · rw [Function.update_of_ne h, if_neg fun hc => h hc.1]

/-- A block is drawn. -/
theorem drawBlock_spec {i j : ℕ} (hi : i < 200) (hj : j < 320) (c : Byte) (buf : PixelBuf) :
    ∃ buf', drawBlock i j c buf = some buf' ∧
      ∀ y x, buf' y x = if y / 2 = i ∧ x / 2 = j then c else buf y x := by
  have hx : 2 * j < 640 ∧ 2 * j + 1 < 640 := by omega
  have hy : 2 * i < 400 ∧ 2 * i + 1 < 400 := by omega
  obtain ⟨buf₁, hrun₁, h₁⟩ := drawPixel_spec hx.1 hy.1 c buf
  obtain ⟨buf₂, hrun₂, h₂⟩ := drawPixel_spec hx.1 hy.2 c buf₁
  obtain ⟨buf₃, hrun₃, h₃⟩ := drawPixel_spec hx.2 hy.1 c buf₂
  obtain ⟨buf₄, hrun₄, h₄⟩ := drawPixel_spec hx.2 hy.2 c buf₃
  refine ⟨buf₄, ?_, fun y x => ?_⟩
  · simp only [drawBlock, Option.bind_eq_bind, hrun₁, hrun₂, hrun₃, hrun₄, Option.bind_some]
  · rw [h₄, h₃, h₂, h₁]
    by_cases hin : y / 2 = i ∧ x / 2 = j
    · have hy' : y = 2 * i ∨ y = 2 * i + 1 := by omega
      have hx' : x = 2 * j ∨ x = 2 * j + 1 := by omega
      rw [if_pos hin]
      rcases hy' with rfl | rfl <;> rcases hx' with rfl | rfl <;> simp
    · rw [if_neg hin, if_neg (by omega), if_neg (by omega), if_neg (by omega), if_neg (by omega)]

/-- The columns of a line are drawn, and nothing else. -/
theorem drawLine_spec (vmem : ℕ → Byte) {i : ℕ} (hi : i < 200) (buf : PixelBuf) : ∀ n ≤ 320,
    ∃ buf', drawLine vmem i n buf = some buf' ∧
      ∀ y x, buf' y x = if y / 2 = i ∧ x / 2 < n then vmem (320 * i + x / 2) else buf y x := by
  intro n
  induction n with
  | zero => exact fun _ => ⟨buf, rfl, fun y x => by rw [if_neg (by omega)]⟩
  | succ n ih =>
    intro hn
    obtain ⟨buf₁, hrun, hbuf⟩ := ih (by omega)
    obtain ⟨buf₂, hblock, hbuf₂⟩ := drawBlock_spec hi (show n < 320 by omega) (vmem (320 * i + n)) buf₁
    refine ⟨buf₂, ?_, fun y x => ?_⟩
    · unfold drawLine
      rw [hrun, Option.bind_eq_bind, Option.bind_some, hblock]
    · rw [hbuf₂, hbuf]
      by_cases hin : y / 2 = i ∧ x / 2 = n
      · rw [if_pos hin, if_pos (by omega), hin.2]
      · rw [if_neg hin]
        exact if_congr (by omega) rfl rfl

/-- The lines whose flag is set are drawn. -/
theorem drawLines_spec (vmem : ℕ → Byte) (lineDirty : ℕ → Bool) (buf : PixelBuf) : ∀ n ≤ 200,
    ∃ buf', drawLines vmem lineDirty n buf = some buf' ∧
      ∀ y x, buf' y x = if y / 2 < n ∧ lineDirty (y / 2) = true ∧ x / 2 < 320 then
        vmem (320 * (y / 2) + x / 2) else buf y x := by
  intro n
  induction n with
  | zero => exact fun _ => ⟨buf, rfl, fun y x => by rw [if_neg (by omega)]⟩
  | succ n ih =>
    intro hn
    obtain ⟨buf₁, hrun, hbuf⟩ := ih (by omega)
    unfold drawLines
    rw [hrun, Option.bind_eq_bind, Option.bind_some]
    by_cases hd : lineDirty n = true
    · obtain ⟨buf₂, hline, hbuf₂⟩ := drawLine_spec vmem (by omega : n < 200) buf₁ 320 le_rfl
      refine ⟨buf₂, by rw [if_pos hd, hline], fun y x => ?_⟩
      rw [hbuf₂, hbuf]
      by_cases hy : y / 2 = n
      · rw [hy, if_neg (by omega : ¬ (n < n ∧ lineDirty n = true ∧ x / 2 < 320))]
        simp [hd]
      · rw [if_neg fun h => hy h.1]
        exact if_congr (by constructor <;> intro h <;> exact ⟨by omega, h.2⟩) rfl rfl
    · refine ⟨buf₁, if_neg hd, fun y x => ?_⟩
      rw [hbuf]
      refine if_congr ?_ rfl rfl
      constructor
      · exact fun h => ⟨by omega, h.2⟩
      · intro h
        have hne : y / 2 ≠ n := fun hy => hd (hy ▸ h.2.1)
        exact ⟨by omega, h.2⟩

/-! ### Writes and updates -/

/-- One write to physical memory. -/
structure Piece where
  addr : Word
  len : ℕ
  data : Word

/-- Its first byte is in the window. -/
def Piece.InWindow (p : Piece) : Prop := 0xa0000#32 ≤ p.addr ∧ p.addr ≤ 0xbffff#32

instance : DecidablePred Piece.InWindow := fun p =>
  inferInstanceAs (Decidable (0xa0000#32 ≤ p.addr ∧ p.addr ≤ 0xbffff#32))

/-- Where the video memory has that byte. -/
def Piece.base (p : Piece) : ℕ := (p.addr - 0xa0000).toNat

/-- What changes the screen: a write of the guest, or a call of `update_screen`.
The addresses are physical: that of the first byte, and where the next page is. -/
inductive VgaOp where
  | write (addr next : Word) (len : ℕ) (data : Word)
  | update

/-- The writes `lnaddr_write` makes, one to each page. -/
def VgaOp.pieces : VgaOp → List Piece
  | .write addr next len data =>
    if addr.toNat % 0x1000 + len - 1 > 0xfff then
      let front := Paging.pageFront addr
      let high := data >>> (8 * front)
      let low := data &&& (1#32 <<< (front * 8) - 1)
      [⟨addr, front, low⟩, ⟨next, len - front, high⟩]
    else [⟨addr, len, data⟩]
  | .update => []

/-- The write has an accepted length and an address in the window, and the next
page starts at a multiple of its size. -/
def VgaOp.Ok : VgaOp → Prop
  | .write addr next len _ => (len = 1 ∨ len = 2 ∨ len = 4) ∧
      (0xa0000#32 ≤ addr ∧ addr ≤ 0xbffff#32) ∧ next.toNat % 0x1000 = 0
  | .update => True

/-- `hwaddr_write`. A piece outside the window goes to the RAM. -/
def vgaWrite (s : Screen) (p : Piece) : Option Screen :=
  if p.addr = 0 then some s
  else match isMmio s.mmio p.addr with
    | none => some s
    | some w => do
      let m ← mmioWrite s.mmio p.addr p.len p.data w
      return { s with pool := m.pool, vga := m.dev }

/-- `lnaddr_write`, or `update_screen`. -/
def vgaStep (op : VgaOp) (s : Screen) : Option Screen :=
  match op with
  | .write addr next len data => (VgaOp.write addr next len data).pieces.foldlM vgaWrite s
  | .update => updateScreen s

def runVga : List VgaOp → Screen → Option Screen
  | [], s => some s
  | op :: ops, s => do
    let s ← vgaStep op s
    runVga ops s

namespace Screen

/-- The line is on the screen as it is in the video memory. -/
def ShownLine (s : Screen) (i : ℕ) : Prop :=
  ∀ j < 320, ∀ y < 2, ∀ x < 2, s.pixelBuf (2 * i + y) (2 * j + x) = s.pool (320 * i + j)

/-- All lines are. -/
def Shown (s : Screen) : Prop := ∀ i < 200, s.ShownLine i

/-- The lines whose flag is clear are, and `vmem_dirty` is set if some flag is. -/
structure Current (s : Screen) : Prop where
  clean : ∀ i < 200, s.vga.lineDirty i = false → s.ShownLine i
  flagged : ∀ i < 200, s.vga.lineDirty i = true → s.vga.vmemDirty = true

/-- Byte `k` of piece `p` is not in the visible part, or in a line in which some
piece starts, or in one with its flag set, or there already. -/
def Tells (s : Screen) (ps : List Piece) (p : Piece) (k : ℕ) : Prop :=
  let line := (p.base + k) / 320
  line < 200 → (∃ q ∈ ps, q.InWindow ∧ q.base / 320 = line) ∨ s.vga.lineDirty line = true ∨
    byte p.data k = s.pool (p.base + k)

/-- The window gets no piece of three bytes, which `mmio_write` does not accept,
and no byte in a line whose flag stays clear. -/
def Covers (s : Screen) (op : VgaOp) : Prop :=
  ∀ p ∈ op.pieces, p.InWindow → p.len ≠ 3 ∧ ∀ k < p.len, s.Tells op.pieces p k

/-- What the pieces do to the screen: the bytes are stored, and the flags of the
lines in which they start are set. -/
structure Written (ps : List Piece) (s t : Screen) : Prop where
  pixels : t.pixelBuf = s.pixelBuf
  dirty : ∀ i < 200, t.vga.lineDirty i = true ↔
    s.vga.lineDirty i = true ∨ ∃ p ∈ ps, p.InWindow ∧ p.base / 320 = i
  vmem : t.vga.vmemDirty = true ↔
    s.vga.vmemDirty = true ∨ ∃ p ∈ ps, p.InWindow ∧ p.base / 320 < 200
  inside : ∀ p ∈ ps, p.InWindow → ∀ k < p.len, t.pool (p.base + k) = byte p.data k
  outside : ∀ a, (∀ p ∈ ps, p.InWindow → a < p.base ∨ p.base + p.len ≤ a) → t.pool a = s.pool a

end Screen

/-- The pieces share no byte. -/
def Piece.Apart (p q : Piece) : Prop := p.base + p.len ≤ q.base ∨ q.base + q.len ≤ p.base

section Pieces

variable {s s' t : Screen} {p : Piece} {ps : List Piece}

/-- The flags after a write. -/
theorem vgaVmemIoHandler_some {addr : Word} {len : ℕ} {v v' : Vga}
    (h : vgaVmemIoHandler addr len true v = some v') :
    (∀ i < 200, v'.lineDirty i = true ↔ v.lineDirty i = true ∨ (addr - 0xa0000).toNat / 320 = i) ∧
      (v'.vmemDirty = true ↔ v.vmemDirty = true ∨ (addr - 0xa0000).toNat / 320 < 200) := by
  unfold vgaVmemIoHandler at h
  dsimp only at h
  generalize (addr - 0xa0000).toNat / 320 = line at h ⊢
  by_cases hline : line < 200
  · rw [if_pos ⟨rfl, hline⟩] at h
    obtain rfl := Option.some.inj h
    refine ⟨fun i _ => ?_, by simp [hline]⟩
    simp only [Function.update_apply]
    by_cases hne : i = line
    · simp [hne]
    · simp [hne, Ne.symm hne]
  · rw [if_neg fun hc => hline hc.2] at h
    obtain rfl := Option.some.inj h
    refine ⟨fun i hi => ?_, by simp [hline]⟩
    have hne : line ≠ i := by omega
    simp [hne]

/-- A piece outside the window does nothing to the screen. -/
theorem vgaWrite_out (hp : ¬ p.InWindow) : vgaWrite s p = some s := by
  have hmap : isMmio s.mmio p.addr = none := by
    rw [isMmio, List.find?_eq_none]
    intro w hw
    obtain rfl := List.mem_singleton.mp hw
    simpa [Piece.InWindow] using hp
  unfold vgaWrite
  rw [hmap, ite_self]

/-- In the window it is stored, unless it has three bytes. -/
theorem vgaWrite_in (hp : p.InWindow) : vgaWrite s p =
    (mmioWrite s.mmio p.addr p.len p.data ⟨0xa0000, 0xbffff, 0, vgaVmemIoHandler⟩).map fun m =>
      { s with pool := m.pool, vga := m.dev } := by
  have hmap : isMmio s.mmio p.addr = some ⟨0xa0000, 0xbffff, 0, vgaVmemIoHandler⟩ := by
    simp [isMmio, Screen.mmio, hp.1, hp.2]
  have hne : p.addr ≠ 0 := by
    intro h0
    have hlow := hp.1
    rw [h0] at hlow
    exact absurd hlow (by decide)
  unfold vgaWrite
  rw [if_neg hne, hmap]
  dsimp only
  cases mmioWrite s.mmio p.addr p.len p.data ⟨0xa0000, 0xbffff, 0, vgaVmemIoHandler⟩ <;> rfl

theorem vgaWrite_none (hp : p.InWindow) (hlen : p.len = 3) : vgaWrite s p = none := by
  rw [vgaWrite_in hp, mmioWrite, hlen, if_neg (by decide)]
  rfl

theorem vgaWrite_some (hp : p.InWindow) (hlen : p.len = 1 ∨ p.len = 2 ∨ p.len = 4) :
    ∃ t, vgaWrite s p = some t ∧ Screen.Written [p] s t := by
  obtain ⟨v, hv⟩ : ∃ v, vgaVmemIoHandler p.addr p.len true s.vga = some v := by
    unfold vgaVmemIoHandler
    dsimp only
    split
    · exact ⟨_, rfl⟩
    · exact ⟨_, rfl⟩
  obtain ⟨hdirty, hvmem⟩ := vgaVmemIoHandler_some hv
  have hbase : 0 + (p.addr - 0xa0000).toNat = p.base := Nat.zero_add _
  refine ⟨⟨store s.pool p.base p.len p.data, v, s.pixelBuf⟩, ?_, rfl, ?_, ?_, ?_, ?_⟩
  · rw [vgaWrite_in hp, mmioWrite_eq _ _ _ _ hlen]
    simp only [show s.mmio.dev = s.vga from rfl, hv, Option.map_some, hbase]
    rfl
  · intro i hi
    rw [hdirty i hi]
    simp [hp, Piece.base]
  · rw [hvmem]
    simp [hp, Piece.base]
  · rintro q hq - k hk
    obtain rfl := List.mem_singleton.mp hq
    dsimp only
    rw [store_of_mem ⟨Nat.le_add_right _ _, by omega⟩, Nat.add_sub_cancel_left]
  · intro a ha
    have hout := ha p (List.mem_singleton_self p) hp
    dsimp only
    rw [store_of_not_mem (by omega)]

/-- The first piece, and then the others. -/
theorem Screen.Written.cons (h₁ : Screen.Written [p] s s') (h₂ : Screen.Written ps s' t)
    (hapart : ∀ q ∈ ps, p.InWindow → q.InWindow → p.Apart q) : Screen.Written (p :: ps) s t where
  pixels := h₂.pixels.trans h₁.pixels
  dirty i hi := by
    rw [h₂.dirty i hi, h₁.dirty i hi]
    simp only [List.mem_cons, List.not_mem_nil, or_false, exists_eq_left, exists_eq_or_imp, or_assoc]
  vmem := by
    rw [h₂.vmem, h₁.vmem]
    simp only [List.mem_cons, List.not_mem_nil, or_false, exists_eq_left, exists_eq_or_imp, or_assoc]
  inside q hq hin k hk := by
    rcases List.mem_cons.mp hq with rfl | hq
    · rw [h₂.outside _ fun r hr hrin => ?_]
      · exact h₁.inside q (List.mem_singleton_self q) hin k hk
      · have := hapart r hr hin hrin
        unfold Piece.Apart at this
        omega
    · exact h₂.inside q hq hin k hk
  outside a ha := by
    rw [h₂.outside a fun q hq => ha q (List.mem_cons_of_mem _ hq)]
    apply h₁.outside a
    rintro q hq
    obtain rfl := List.mem_singleton.mp hq
    exact ha q List.mem_cons_self

/-- A piece outside the window, and then the others. -/
theorem Screen.Written.skip (h : Screen.Written ps s t) (hp : ¬ p.InWindow) :
    Screen.Written (p :: ps) s t where
  pixels := h.pixels
  dirty i hi := by
    rw [h.dirty i hi]
    simp only [List.mem_cons, exists_eq_or_imp, hp, false_and, false_or]
  vmem := by
    rw [h.vmem]
    simp only [List.mem_cons, exists_eq_or_imp, hp, false_and, false_or]
  inside q hq hin := by
    rcases List.mem_cons.mp hq with rfl | hq
    · exact absurd hin hp
    · exact h.inside q hq hin
  outside a ha := h.outside a fun q hq => ha q (List.mem_cons_of_mem _ hq)

/-- The pieces of a write, one after the other. -/
theorem writes_spec : ∀ (ps : List Piece) (s : Screen), (∀ p ∈ ps, 1 ≤ p.len ∧ p.len ≤ 4) →
    ps.Pairwise (fun p q => p.InWindow → q.InWindow → p.Apart q) →
    ((∀ p ∈ ps, p.InWindow → p.len ≠ 3) → ∃ t, ps.foldlM vgaWrite s = some t ∧ Screen.Written ps s t) ∧
      ((∃ p ∈ ps, p.InWindow ∧ p.len = 3) → ps.foldlM vgaWrite s = none)
  | [], s, _, _ => by
    refine ⟨fun _ => ⟨s, rfl, rfl, ?_, ?_, ?_, fun _ _ => rfl⟩, ?_⟩
    · simp
    · simp
    · simp
    · simp
  | p :: ps, s, hlen, hapart => by
    obtain ⟨hhead, htail⟩ := List.pairwise_cons.mp hapart
    have ih := fun s => writes_spec ps s (fun q hq => hlen q (List.mem_cons_of_mem _ hq)) htail
    simp only [List.foldlM_cons, Option.bind_eq_bind]
    by_cases hp : p.InWindow
    · by_cases hthree : p.len = 3
      · rw [vgaWrite_none hp hthree]
        exact ⟨fun h => absurd hthree (h p List.mem_cons_self hp), fun _ => rfl⟩
      · obtain ⟨s', hs', hw⟩ := vgaWrite_some (s := s) hp (by have := hlen p List.mem_cons_self; omega)
        rw [hs', Option.bind_some]
        refine ⟨fun h => ?_, ?_⟩
        · obtain ⟨t, ht, hw'⟩ := (ih s').1 fun q hq => h q (List.mem_cons_of_mem _ hq)
          exact ⟨t, ht, hw.cons hw' hhead⟩
        · rintro ⟨q, hq, hin, hlen3⟩
          rcases List.mem_cons.mp hq with rfl | hq
          · exact absurd hlen3 hthree
          · exact (ih s').2 ⟨q, hq, hin, hlen3⟩
    · rw [vgaWrite_out hp, Option.bind_some]
      refine ⟨fun h => ?_, ?_⟩
      · obtain ⟨t, ht, hw⟩ := (ih s).1 fun q hq => h q (List.mem_cons_of_mem _ hq)
        exact ⟨t, ht, hw.skip hp⟩
      · rintro ⟨q, hq, hin, hlen3⟩
        rcases List.mem_cons.mp hq with rfl | hq
        · exact absurd hin hp
        · exact (ih s).2 ⟨q, hq, hin, hlen3⟩

/-- The clean lines are still as in memory exactly if every byte tells. -/
theorem Screen.Written.current_iff (hw : Screen.Written ps s t) (h : s.Current) :
    t.Current ↔ ∀ p ∈ ps, p.InWindow → ∀ k < p.len, s.Tells ps p k := by
  constructor
  · intro hcur p hp hin k hk
    unfold Screen.Tells
    dsimp only
    intro hline
    by_contra hno
    obtain ⟨hne, hclean, hdata⟩ := not_or.mp hno |>.imp_right not_or.mp
    have hclean' : t.vga.lineDirty ((p.base + k) / 320) = false := by
      apply Bool.eq_false_of_not_eq_true
      rw [hw.dirty _ hline]
      exact fun hc => hc.elim hclean hne
    -- the pixel of the byte is the old byte, and should be the new one
    have hpos : 320 * ((p.base + k) / 320) + (p.base + k) % 320 = p.base + k := Nat.div_add_mod _ _
    have hcol : (p.base + k) % 320 < 320 := Nat.mod_lt _ (by decide)
    have hnew := hcur.clean _ hline hclean' _ hcol 0 (by decide) 0 (by decide)
    have hold := h.clean _ hline (Bool.eq_false_of_not_eq_true hclean) _ hcol 0 (by decide) 0
      (by decide)
    simp only [hpos] at hnew hold
    rw [hw.pixels, hold, hw.inside p hp hin k hk] at hnew
    exact hdata hnew.symm
  · intro hcov
    refine ⟨fun i hi hclean j hj y hy x hx => ?_, fun i hi hline => ?_⟩
    · have hnot : ¬ (s.vga.lineDirty i = true ∨ ∃ p ∈ ps, p.InWindow ∧ p.base / 320 = i) := by
        rw [← hw.dirty i hi, hclean]
        exact Bool.false_ne_true
      obtain ⟨hold, hne⟩ := not_or.mp hnot
      have hpix := h.clean i hi (Bool.eq_false_of_not_eq_true hold) j hj y hy x hx
      rw [hw.pixels, hpix]
      by_cases hin : ∃ p ∈ ps, p.InWindow ∧ p.base ≤ 320 * i + j ∧ 320 * i + j < p.base + p.len
      · obtain ⟨p, hp, hwin, hle, hlt⟩ := hin
        have hk := hcov p hp hwin (320 * i + j - p.base) (by omega)
        have hbyte := hw.inside p hp hwin (320 * i + j - p.base) (by omega)
        unfold Screen.Tells at hk
        dsimp only at hk
        rw [Nat.add_sub_cancel' hle, show (320 * i + j) / 320 = i by omega] at hk
        rw [Nat.add_sub_cancel' hle] at hbyte
        rw [hbyte]
        exact (((hk hi).resolve_left hne).resolve_left hold).symm
      · symm
        apply hw.outside
        intro p hp hwin
        by_contra hc
        exact hin ⟨p, hp, hwin, by omega, by omega⟩
    · rw [hw.vmem]
      rcases (hw.dirty i hi).mp hline with hold | ⟨p, hp, hwin, rfl⟩
      · exact .inl (h.flagged i hi hold)
      · exact .inr ⟨p, hp, hwin, hi⟩

/-- The pieces of a write have one to four bytes, and share none. -/
theorem VgaOp.Ok.pieces {op : VgaOp} (h : op.Ok) : (∀ p ∈ op.pieces, 1 ≤ p.len ∧ p.len ≤ 4) ∧
    op.pieces.Pairwise (fun p q => p.InWindow → q.InWindow → p.Apart q) := by
  cases op with
  | update => exact ⟨fun p hp => absurd hp List.not_mem_nil, List.Pairwise.nil⟩
  | write addr next len data =>
    obtain ⟨hlen, ⟨hlow, hhigh⟩, hnext⟩ := h
    unfold VgaOp.pieces
    dsimp only
    split
    · next hcross =>
      unfold Paging.pageFront
      refine ⟨?_, ?_⟩
      · simp only [List.mem_cons, List.not_mem_nil, or_false, forall_eq_or_imp, forall_eq]
        omega
      · simp only [List.pairwise_cons, List.mem_singleton, forall_eq, List.not_mem_nil,
          false_imp_iff, implies_true, List.Pairwise.nil, and_true]
        -- the one ends with its page, the other starts with one
        rintro - ⟨hlow', -⟩
        unfold Piece.Apart Piece.base
        dsimp only at hlow' ⊢
        bv_omega
    · refine ⟨?_, List.pairwise_singleton _ _⟩
      simp only [List.mem_singleton, forall_eq]
      omega

end Pieces

section Steps

variable {s : Screen} {op : VgaOp}

/-- `update_screen` draws the lines whose flag is set, and clears the flags. -/
theorem vgaStep_update (h : s.Current) : ∃ s', vgaStep .update s = some s' ∧ s'.Shown ∧ s'.Current := by
  by_cases hd : s.vga.vmemDirty = true
  · obtain ⟨buf, hrun, hbuf⟩ := drawLines_spec s.pool s.vga.lineDirty s.pixelBuf 200 le_rfl
    have hshown : ∀ i < 200, ∀ j < 320, ∀ y < 2, ∀ x < 2,
        buf (2 * i + y) (2 * j + x) = s.pool (320 * i + j) := by
      intro i hi j hj y hy x hx
      rw [hbuf, show (2 * i + y) / 2 = i by omega, show (2 * j + x) / 2 = j by omega]
      by_cases hline : s.vga.lineDirty i = true
      · rw [if_pos ⟨hi, hline, hj⟩]
      · rw [if_neg fun hc => hline hc.2.1]
        exact h.clean i hi (Bool.eq_false_of_not_eq_true hline) j hj y hy x hx
    refine ⟨⟨s.pool, ⟨fun i => if i < 200 then false else s.vga.lineDirty i, false⟩, buf⟩, ?_, hshown,
      fun i hi _ => hshown i hi, fun i hi hline => ?_⟩
    · simp only [vgaStep, updateScreen, doUpdateScreenGraphicMode, hd, hrun, if_true,
        Option.bind_eq_bind, Option.bind_some, Option.pure_def]
    · dsimp only at hline
      rw [if_pos hi] at hline
      exact nomatch hline
  · have hclean : ∀ i < 200, s.vga.lineDirty i = false := by
      intro i hi
      exact Bool.eq_false_of_not_eq_true fun hline => hd (h.flagged i hi hline)
    exact ⟨s, by rw [vgaStep, updateScreen, if_neg hd], fun i hi => h.clean i hi (hclean i hi), h⟩

/-- **One step.** A write is made and the clean lines are still as in memory
exactly if it is covered. -/
theorem step_current_iff (h : s.Current) (hok : op.Ok) :
    (∃ s', vgaStep op s = some s' ∧ s'.Current) ↔ s.Covers op := by
  cases op with
  | update =>
    obtain ⟨s', hstep, -, hcur⟩ := vgaStep_update h
    exact iff_of_true ⟨s', hstep, hcur⟩ fun p hp => absurd hp List.not_mem_nil
  | write addr next len data =>
    obtain ⟨hlen, hapart⟩ := hok.pieces
    obtain ⟨hsome, hnone⟩ := writes_spec _ s hlen hapart
    unfold vgaStep Screen.Covers
    dsimp only
    constructor
    · rintro ⟨t, ht, hcur⟩
      have hthree : ∀ p ∈ (VgaOp.write addr next len data).pieces, p.InWindow → p.len ≠ 3 := by
        intro p hp hin hc
        rw [hnone ⟨p, hp, hin, hc⟩] at ht
        exact nomatch ht
      obtain ⟨t', ht', hw⟩ := hsome hthree
      obtain rfl := Option.some.inj (ht.symm.trans ht')
      exact fun p hp hin => ⟨hthree p hp hin, (hw.current_iff h).mp hcur p hp hin⟩
    · intro hcov
      obtain ⟨t, ht, hw⟩ := hsome fun p hp hin => (hcov p hp hin).1
      exact ⟨t, ht, (hw.current_iff h).mpr fun p hp hin => (hcov p hp hin).2⟩

end Steps

/-! ### Runs -/

section Runs

variable {s : Screen} {ops : List VgaOp}

theorem runVga_append (ops' : List VgaOp) :
    ∀ (ops : List VgaOp) (s : Screen), runVga (ops ++ ops') s = (runVga ops s).bind (runVga ops')
  | [], s => rfl
  | op :: ops, s => by
    simp only [List.cons_append, runVga, Option.bind_eq_bind]
    cases vgaStep op s with
    | none => rfl
    | some t => exact runVga_append ops' ops t

/-- The screen after each part of a run is current exactly if each of its writes
is covered. -/
theorem runVga_current_iff : ∀ (ops : List VgaOp) (s : Screen), s.Current → (∀ op ∈ ops, op.Ok) →
    ((∀ pre, pre <+: ops → ∃ t, runVga pre s = some t ∧ t.Current) ↔
      ∀ pre op t, pre ++ [op] <+: ops → runVga pre s = some t → t.Covers op)
  | [], s, h, _ => by
    constructor
    · intro _ pre op t hpre
      exact absurd (List.prefix_nil.mp hpre) (by simp)
    · intro _ pre hpre
      rw [List.prefix_nil.mp hpre]
      exact ⟨s, rfl, h⟩
  | op :: ops, s, h, hops => by
    have hiff := step_current_iff h (hops op List.mem_cons_self)
    have hrun : ∀ {s'}, vgaStep op s = some s' → ∀ pre, runVga (op :: pre) s = runVga pre s' := by
      intro s' hstep pre
      rw [runVga, hstep, Option.bind_eq_bind, Option.bind_some]
    have ih := fun s' h' =>
      runVga_current_iff ops s' h' fun op hop => hops op (List.mem_cons_of_mem _ hop)
    constructor
    · intro hall
      obtain ⟨s', hs', hcur⟩ := hall [op] ⟨ops, rfl⟩
      have hstep : vgaStep op s = some s' := by
        rw [runVga, Option.bind_eq_bind] at hs'
        simpa only [runVga, Option.bind_fun_some] using hs'
      have hrest := (ih s' hcur).mp fun pre hpre => by
        obtain ⟨t, ht, htcur⟩ := hall (op :: pre) (List.cons_prefix_cons.mpr ⟨rfl, hpre⟩)
        exact ⟨t, by rw [← hrun hstep, ht], htcur⟩
      intro pre op' t hpre ht
      cases pre with
      | nil =>
        obtain ⟨rfl, -⟩ := List.cons_prefix_cons.mp hpre
        obtain rfl := Option.some.inj ht
        exact hiff.mp ⟨s', hstep, hcur⟩
      | cons q pre =>
        obtain ⟨rfl, htail⟩ := List.cons_prefix_cons.mp hpre
        exact hrest pre op' t htail (by rw [← hrun hstep, ht])
    · intro hall
      obtain ⟨s', hstep, hcur⟩ := hiff.mpr (hall [] op s ⟨ops, rfl⟩ rfl)
      have hrest := (ih s' hcur).mpr fun pre op' t hpre ht =>
        hall (op :: pre) op' t (List.cons_prefix_cons.mpr ⟨rfl, hpre⟩) (by rw [hrun hstep, ht])
      intro pre hpre
      cases pre with
      | nil => exact ⟨s, rfl, h⟩
      | cons q pre =>
        obtain ⟨rfl, htail⟩ := List.cons_prefix_cons.mp hpre
        rw [hrun hstep]
        exact hrest pre htail

/-- **The screen shows the video memory.** From a start with all lines clean and
shown, every line with a clear flag is shown in every state of a run exactly if
each write of the run is covered; and then the screen shows the video memory
right after each `update_screen`. -/
theorem screen_iff (hclean : ∀ i < 200, s.vga.lineDirty i = false) (hshown : s.Shown)
    (hops : ∀ op ∈ ops, op.Ok) :
    ((∀ pre, pre <+: ops → ∃ t, runVga pre s = some t ∧ t.Current) ↔
      ∀ pre op t, pre ++ [op] <+: ops → runVga pre s = some t → t.Covers op) ∧
    ((∀ pre op t, pre ++ [op] <+: ops → runVga pre s = some t → t.Covers op) →
      ∀ pre, pre ++ [.update] <+: ops → ∃ t, runVga (pre ++ [.update]) s = some t ∧ t.Shown) := by
  have hstart : s.Current := by
    refine ⟨fun i hi _ => hshown i hi, fun i hi hdirty => ?_⟩
    rw [hclean i hi] at hdirty
    exact nomatch hdirty
  have hiff := runVga_current_iff ops s hstart hops
  refine ⟨hiff, fun hcov pre hpre => ?_⟩
  obtain ⟨t, ht, hcur⟩ := hiff.mpr hcov pre ((List.prefix_append pre _).trans hpre)
  obtain ⟨t', hstep, hall, -⟩ := vgaStep_update hcur
  refine ⟨t', ?_, hall⟩
  rw [runVga_append, ht, Option.bind_some, runVga, hstep]
  rfl

end Runs

/-- A blank screen. -/
def blankScreen : Screen := ⟨fun _ => 0, ⟨fun _ => false, false⟩, fun _ _ => 0⟩

/-- Two bytes that end line 63 and its page and start line 64, an update, the last
four bytes of line 0, and an update. -/
def lineEnds : List VgaOp :=
  [.write 0xa4fff 0xa5000 2 0x0201, .update, .write 0xa013c 0xa1000 4 0x04030201, .update]

theorem screen_iff_lineEnds : ∃ t, runVga lineEnds blankScreen = some t ∧ t.Shown := by
  have hops : ∀ op ∈ lineEnds, op.Ok := by
    simp only [lineEnds, List.mem_cons, List.not_mem_nil, or_false, forall_eq_or_imp, forall_eq]
    exact ⟨⟨.inr (.inl rfl), by decide, by decide⟩, trivial,
      ⟨.inr (.inr rfl), by decide, by decide⟩, trivial⟩
  have hstarts : ∀ op ∈ lineEnds, ∀ p ∈ op.pieces, p.len ≠ 3 ∧ ∀ k < p.len,
      ∃ q ∈ op.pieces, q.InWindow ∧ q.base / 320 = (p.base + k) / 320 := by
    decide +kernel
  refine (screen_iff (s := blankScreen) (fun _ _ => rfl) (fun _ _ _ _ _ _ _ _ => rfl) hops).2 ?_
    (lineEnds.take 3) (List.prefix_refl _)
  intro pre op t hpre _ p hp _
  obtain ⟨hlen, hline⟩ := hstarts op (hpre.subset (by simp)) p hp
  exact ⟨hlen, fun k hk _ => .inl (hline k hk)⟩

/-- Two bytes from the last of line 0 on: the first byte of line 1 is not drawn. -/
theorem screen_not_shown : (∀ i < 200, blankScreen.vga.lineDirty i = false) ∧ blankScreen.Shown ∧ ∃ t,
    runVga [.write 0xa013f 0xa1000 2 0x0101, .update] blankScreen = some t ∧
      t.pool 320 = 1 ∧ t.pixelBuf 2 0 = 0 ∧ ¬ t.Shown := by
  have hrun : (runVga [.write 0xa013f 0xa1000 2 0x0101, .update] blankScreen).map
      (fun t => (t.pool 320, t.pixelBuf 2 0)) = some (1, 0) := by decide +kernel
  obtain ⟨t, ht, hbytes⟩ := Option.map_eq_some_iff.mp hrun
  obtain ⟨hpool, hpixel⟩ := Prod.mk.inj hbytes
  refine ⟨fun _ _ => rfl, fun _ _ _ _ _ _ _ _ => rfl, t, ht, hpool, hpixel, fun hshown => ?_⟩
  have h := hshown 1 (by decide) 0 (by decide) 0 (by decide) 0 (by decide)
  rw [show t.pixelBuf (2 * 1 + 0) (2 * 0 + 0) = 0 from hpixel,
    show t.pool (320 * 1 + 0) = 1 from hpool] at h
  exact absurd h (by decide)

end Nemu
