/-
# What the typing game draws

`video.c` and `draw.c`: texts are drawn glyph by glyph into a buffer of 200 rows
of 320 pixels, and a pixel outside it fails an assertion. `redraw_screen` draws
the letters and then the counters. For letters on the screen every pixel is
inside, and the buffer is left with the layers of the texts, one over the other.

The font is a parameter: `font8x8_basic`, of which row `i` of glyph `ch` is
`font ch i`.

Key definitions: `drawPixel`, `drawString`, `redrawScreen`, `Text.layer`, `texts`.
Key theorems: `drawCharacter_eq`, `drawString_eq`, `redrawScreen_eq`.
-/
import Nemu.Game.Letters
import Nemu.Lib.Decimal
import Nemu.Lib.Overlay

namespace Nemu

namespace Typing

open Bytes Overlay LinkList Fixed

/-- `vbuf`, and what is behind it. -/
abbrev Frame := ℕ → Byte

/-- `font8x8_basic`. -/
abbrev Font := ℕ → ℕ → Byte

/-- `SCR_SIZE`. -/
def scrSize : ℕ := 64000

/-- The sum of two integers. -/
def plus (a b : ℤ) : Except Fault ℤ := num (int (a + b))

/-- `prepare_buffer`. -/
def prepareBuffer (vmem : Frame) : Frame := fun n => if n < scrSize then 0 else vmem n

/-- `draw_pixel`. -/
def drawPixel (x y : ℤ) (color : Byte) (vmem : Frame) : Except Fault Frame :=
  if 0 ≤ x ∧ 0 ≤ y ∧ x < scrHeight ∧ y < scrWidth then
    .ok (Function.update vmem (x * 2 ^ 8 + x * 2 ^ 6 + y).toNat color)
  else .error .assertion

/-- The body of the loops of `draw_character`. -/
def drawDot (font : Font) (ch : Byte) (x y : ℤ) (color : Byte) (i j : ℕ) (vmem : Frame) : Except Fault Frame :=
  if (font ch.toNat i).getLsbD j then do
    let x ← plus x i
    let y ← plus y j
    drawPixel x y color vmem
  else .ok vmem

/-- `draw_character`. -/
def drawCharacter (font : Font) (ch : Byte) (x y : ℤ) (color : Byte) (vmem : Frame) : Except Fault Frame :=
  if ch &&& 0x80 = 0 then
    (List.range 8).foldlM (fun vmem i =>
      (List.range 8).foldlM (fun vmem j => drawDot font ch x y color i j vmem) vmem) vmem
  else .error .assertion

/-- `draw_string`. -/
def drawString (font : Font) : List Byte → ℤ → ℤ → Byte → Frame → Except Fault Frame
  | [], _, _, _, vmem => .ok vmem
  | ch :: str, x, y, color, vmem => do
    let vmem ← drawCharacter font ch x y color vmem
    let next ← plus y 8
    if next ≥ scrWidth then
      let x ← plus x 8
      drawString font str x 0 color vmem
    else drawString font str x next color vmem

/-- `itoa`, as `snprintf` writes it. -/
def itoa (a : ℤ) : List Byte :=
  (if a < 0 then '-' :: Decimal.digits a.natAbs else Decimal.digits a.natAbs).map fun c => BitVec.ofNat 8 c.toNat

/-- `F2int`. -/
def f2int (a : ℤ) : ℤ := ((BitVec.ofInt 32 a &&& 0xffff0000#32).sshiftRight 16).toInt

/-- `buf[0] = it->text + 'A'`. -/
def letterText (l : Letter) : List Byte := [BitVec.ofInt 8 (l.text + 65)]

/-- The loop of `redraw_screen`, with at most so many rounds. -/
def drawLetters (font : Font) (s : Game) : ℕ → Option Fly → Frame → Except Fault Frame
  | _, none, vmem => .ok vmem
  | 0, some _, _ => .error .endless
  | n + 1, some it, vmem => do
    let l := s.letters it
    let vmem ← drawString font (letterText l) (f2int l.x) l.y 15 vmem
    drawLetters font s n (s.pool.next it) vmem

/-- `"FPS"`. -/
def fpsText : List Byte := [0x46, 0x50, 0x53]

/-- `redraw_screen`, without `display_buffer`. -/
def redrawScreen (font : Font) (keyCode fps : ℤ) (s : Game) (vmem : Frame) : Except Fault Frame := do
  let vmem := prepareBuffer vmem
  let vmem ← drawLetters font s rounds s.head vmem
  let vmem ← drawString font (itoa keyCode) (scrHeight - 8) 0 48 vmem
  let hit := itoa s.hit
  let vmem ← drawString font hit 0 (scrWidth - hit.length * 8) 10 vmem
  let miss := itoa s.miss
  let vmem ← drawString font miss (scrHeight - 8) (scrWidth - miss.length * 8) 12 vmem
  let vmem ← drawString font (itoa fps) 0 0 14 vmem
  drawString font fpsText 0 ((itoa fps).length * 8) 14 vmem

/-! ### Texts as layers -/

/-- A text in a row, from a pixel on. -/
structure Text where
  str : List Byte
  x : ℕ
  y : ℕ
  color : Byte

/-- The pixels of a glyph. -/
def glyph (font : Font) (ch : Byte) (x y : ℕ) (n : ℕ) : Bool :=
  decide (x ≤ n / 320 ∧ n / 320 < x + 8 ∧ y ≤ n % 320 ∧ n % 320 < y + 8) &&
    (font ch.toNat (n / 320 - x)).getLsbD (n % 320 - y)

/-- A text is its glyphs, side by side. -/
def textLayer (font : Font) (x : ℕ) (color : Byte) : List Byte → ℕ → ℕ → Option Byte
  | [], _ => fun _ => none
  | ch :: str, y => stack (textLayer font x color str (y + 8)) (region (glyph font ch x y) color)

def Text.layer (font : Font) (t : Text) : ℕ → Option Byte := textLayer font t.x t.color t.str t.y

/-- The text is on the screen, and of characters that have a glyph. -/
structure Text.Fits (t : Text) : Prop where
  x_le : t.x + 8 ≤ 200
  y_le : t.y + 8 * t.str.length ≤ 320
  ascii : ∀ ch ∈ t.str, ch &&& 0x80 = 0

/-- A letter, as it is drawn. -/
def Letter.sprite (l : Letter) : Text := ⟨letterText l, (l.x / 65536).toNat, l.y.toNat, 15⟩

/-- The last key, the counters and the frames per second. -/
def counters (keyCode fps : ℤ) (s : Game) : List Text :=
  [⟨itoa keyCode, 192, 0, 48⟩, ⟨itoa s.hit, 0, 320 - (itoa s.hit).length * 8, 10⟩,
    ⟨itoa s.miss, 192, 320 - (itoa s.miss).length * 8, 12⟩, ⟨itoa fps, 0, 0, 14⟩,
    ⟨fpsText, 0, (itoa fps).length * 8, 14⟩]

/-- The texts of a frame in the order in which they are drawn. -/
def texts (keyCode fps : ℤ) (s : Game) (l : List Fly) : List Text :=
  l.map (fun i => (s.letters i).sprite) ++ counters keyCode fps s

section Draw

variable {font : Font} {x y : ℕ}

theorem plus_ok {a b : ℤ} (h : IsInt (a + b)) : plus a b = .ok (a + b) := num_int h

/-- A pixel on the screen. -/
theorem drawPixel_eq (hx : x < 200) (hy : y < 320) (color : Byte) (vmem : Frame) :
    drawPixel x y color vmem = .ok (paint (dot (320 * x + y) color) vmem) := by
  have hindex : ((x : ℤ) * 2 ^ 8 + x * 2 ^ 6 + y).toNat = 320 * x + y := by omega
  have hin : 0 ≤ (x : ℤ) ∧ 0 ≤ (y : ℤ) ∧ (x : ℤ) < scrHeight ∧ (y : ℤ) < (scrWidth : ℤ) := by
    unfold scrHeight scrWidth
    omega
  rw [drawPixel, if_pos hin, hindex, paint_dot]

theorem drawDot_eq {i j : ℕ} (hx : x + i < 200) (hy : y + j < 320) (ch color : Byte) (vmem : Frame) :
    drawDot font ch x y color i j vmem = .ok (paint
      (region (fun n => (font ch.toNat i).getLsbD j && decide (n = 320 * (x + i) + (y + j))) color) vmem) := by
  unfold drawDot
  cases (font ch.toNat i).getLsbD j with
  | false => rfl
  | true =>
    have hx' : ((x : ℤ) + (i : ℤ)) = ((x + i : ℕ) : ℤ) := by push_cast; rfl
    have hy' : ((y : ℤ) + (j : ℤ)) = ((y + j : ℕ) : ℤ) := by push_cast; rfl
    rw [if_pos rfl, plus_ok (by unfold IsInt; omega), done_bind, plus_ok (by unfold IsInt; omega), done_bind, hx', hy',
      drawPixel_eq hx hy, dot_eq_region]
    simp only [Bool.true_and]

/-- **A glyph.** -/
theorem drawCharacter_eq {ch : Byte} (hch : ch &&& 0x80 = 0) (hx : x + 8 ≤ 200) (hy : y + 8 ≤ 320) (color : Byte)
    (vmem : Frame) :
    drawCharacter font ch x y color vmem = .ok (paint (region (glyph font ch x y) color) vmem) := by
  have hrow : ∀ i ∈ List.range 8, ∀ vmem, (List.range 8).foldlM (fun vmem j => drawDot font ch x y color i j vmem) vmem =
      .ok (paint (region (fun n => (List.range 8).any fun j =>
        (font ch.toNat i).getLsbD j && decide (n = 320 * (x + i) + (y + j))) color) vmem) := by
    intro i hi vmem
    rw [List.mem_range] at hi
    rw [foldlM_paint (fun j hj v => drawDot_eq (by omega) (by rw [List.mem_range] at hj; omega) ch color v), layers_region]
  rw [drawCharacter, if_pos hch, foldlM_paint hrow, layers_region]
  congr 3
  funext n
  -- a dot of the two loops is a place of the square, and its bit
  rw [Bool.eq_iff_iff, glyph, Bool.and_eq_true, decide_eq_true_eq, List.any_eq_true]
  constructor
  · rintro ⟨i, hi, hany⟩
    obtain ⟨j, hj, hdot⟩ := List.any_eq_true.mp hany
    rw [List.mem_range] at hi hj
    rw [Bool.and_eq_true, decide_eq_true_eq] at hdot
    obtain ⟨hbit, hn⟩ := hdot
    have hdiv : n / 320 = x + i := by omega
    have hmod : n % 320 = y + j := by omega
    rw [hdiv, hmod, Nat.add_sub_cancel_left, Nat.add_sub_cancel_left]
    exact ⟨by omega, hbit⟩
  · rintro ⟨hin, hbit⟩
    refine ⟨n / 320 - x, List.mem_range.mpr (by omega), List.any_eq_true.mpr
      ⟨n % 320 - y, List.mem_range.mpr (by omega), ?_⟩⟩
    rw [Bool.and_eq_true, decide_eq_true_eq]
    exact ⟨hbit, by omega⟩

/-- **A text** on the screen. -/
theorem drawString_eq {str : List Byte} (hx : x + 8 ≤ 200) (hy : y + 8 * str.length ≤ 320)
    (hascii : ∀ ch ∈ str, ch &&& 0x80 = 0) (color : Byte) (vmem : Frame) :
    drawString font str x y color vmem = .ok (paint (textLayer font x color str y) vmem) := by
  induction str generalizing y vmem with
  | nil => rfl
  | cons ch str ih =>
    rw [List.length_cons] at hy
    rw [List.forall_mem_cons] at hascii
    have hnext : ((y : ℤ) + 8) = ((y + 8 : ℕ) : ℤ) := by push_cast; rfl
    rw [drawString, drawCharacter_eq hascii.1 hx (by omega), done_bind, plus_ok (by unfold IsInt; omega), done_bind,
      hnext, textLayer, ← paint_paint]
    by_cases hend : ((y + 8 : ℕ) : ℤ) ≥ (scrWidth : ℤ)
    · -- the row is full, and so is the text
      have hnil : str = [] := List.eq_nil_of_length_eq_zero (by unfold scrWidth at hend; omega)
      subst hnil
      rw [if_pos hend, plus_ok (by unfold IsInt; omega), done_bind]
      rfl
    · rw [if_neg hend]
      exact ih (by omega) hascii.2 _

theorem Text.Fits.draw {t : Text} (h : t.Fits) (vmem : Frame) :
    drawString font t.str t.x t.y t.color vmem = .ok (paint (t.layer font) vmem) :=
  drawString_eq h.x_le h.y_le h.ascii t.color vmem

end Draw

/-! ### The texts of a frame -/

/-- A number below 128 is a character. -/
theorem ascii_ofNat {n : ℕ} (hn : n < 128) : BitVec.ofNat 8 n &&& 0x80 = 0 := by
  have hall : ∀ i : Fin 128, BitVec.ofNat 8 i.val &&& 0x80 = 0 := by decide
  exact hall ⟨n, hn⟩

theorem itoa_ascii (a : ℤ) : ∀ ch ∈ itoa a, ch &&& 0x80 = 0 := by
  have hdigit : ∀ c ∈ Decimal.digits a.natAbs, c.toNat < 128 := by
    intro c hc
    have h := Char.isDigit_iff_toNat.mp (Nat.isDigit_of_mem_toDigits (by decide) (by decide) hc)
    exact Nat.lt_of_le_of_lt h.2 (by decide)
  intro ch hch
  obtain ⟨c, hc, rfl⟩ := List.mem_map.mp hch
  apply ascii_ofNat
  split_ifs at hc
  · rcases List.mem_cons.mp hc with rfl | hc
    · decide
    · exact hdigit c hc
  · exact hdigit c hc

/-- An integer has at most eleven characters. -/
theorem itoa_length {a : ℤ} (h : IsInt a) : (itoa a).length ≤ 11 := by
  have hten : a.natAbs < 10 ^ 10 := by
    unfold IsInt at h
    omega
  have hdigits : (Decimal.digits a.natAbs).length ≤ 10 :=
    (Nat.length_toDigits_le_iff (by decide) (by decide)).mpr hten
  rw [itoa, List.length_map]
  split_ifs
  · rw [List.length_cons]
    omega
  · omega

/-- The mask does not matter. -/
theorem f2int_eq {a : ℤ} (h0 : 0 ≤ a) (h : IsInt a) : f2int a = a / 65536 := by
  have hmask : ∀ v : BitVec 32, (v &&& 0xffff0000#32).sshiftRight 16 = v.sshiftRight 16 := by
    intro v
    apply BitVec.eq_of_getLsbD_eq
    intro i hi
    have hones : ∀ j : Fin 32, (0xffff0000#32).getLsbD j.val = decide (16 ≤ j.val) := by decide
    simp only [BitVec.getLsbD_sshiftRight, BitVec.getLsbD_and, BitVec.msb_eq_getLsbD_last]
    have hlast := hones 31
    by_cases hlt : 16 + i < 32
    · have hi16 := hones ⟨16 + i, hlt⟩
      simp only [hlt, hi16, if_true]
      simp
    · simp [hlt]
  have htoInt : (BitVec.ofInt 32 a).toInt = a := by
    unfold IsInt at h
    exact BitVec.toInt_ofInt_eq_self (by decide) (by omega) (by omega)
  rw [f2int, hmask, BitVec.toInt_sshiftRight, htoInt, Int.shiftRight_eq_div_pow]
  rfl

/-- The letter has its place in a row. -/
structure Letter.Placed (l : Letter) : Prop where
  y_nonneg : 0 ≤ l.y
  y_le : l.y ≤ 312

/-- **A letter on the screen** fits. -/
theorem Letter.sprite_fits {l : Letter} (h : l.OnScreen) (hp : l.Placed) : l.sprite.Fits := by
  refine ⟨?_, ?_, fun ch hch => ?_⟩
  · have := h.x_nonneg
    have := h.x_le
    change (l.x / 65536).toNat + 8 ≤ 200
    omega
  · have := hp.y_le
    change l.y.toNat + 8 * 1 ≤ 320
    omega
  · obtain rfl := List.mem_singleton.mp hch
    have hall : ∀ i : Fin 26, BitVec.ofInt 8 ((i.val : ℤ) + 65) &&& 0x80 = 0 := by decide
    have h0 := h.text_nonneg
    have h26 := h.text_lt
    have hi := hall ⟨l.text.toNat, by omega⟩
    rwa [show ((l.text.toNat : ℕ) : ℤ) = l.text by omega] at hi

section Redraw

variable {font : Font} {k : ℕ} {s : Game} {l : List Fly}

/-- The loop over the letters. -/
theorem drawLetters_eq {n : ℕ} {a : Option Fly} (hn : l.length ≤ n) (hseg : Seg s.pool.next a l none)
    (hon : ∀ i ∈ l, (s.letters i).OnScreen) (hplaced : ∀ i ∈ l, (s.letters i).Placed) (vmem : Frame) :
    drawLetters font s n a vmem =
      .ok (paint (layers (Text.layer font) (l.map fun i => (s.letters i).sprite)) vmem) := by
  induction l generalizing n a vmem with
  | nil =>
    obtain rfl : a = none := hseg
    cases n <;> rfl
  | cons it l ih =>
    obtain ⟨rfl, hseg⟩ := hseg
    obtain ⟨n, rfl⟩ : ∃ m, n = m + 1 := ⟨n - 1, by rw [List.length_cons] at hn; omega⟩
    rw [List.forall_mem_cons] at hon hplaced
    have h0 := hon.1.x_nonneg
    have hx := hon.1.x_le
    have hy := hplaced.1.y_nonneg
    have hrow : f2int (s.letters it).x = (((s.letters it).x / 65536).toNat : ℤ) := by
      rw [f2int_eq h0 (by unfold IsInt; omega)]
      omega
    have hcol : (s.letters it).y = ((s.letters it).y.toNat : ℤ) := by omega
    have hdraw : drawString font (letterText (s.letters it)) (f2int (s.letters it).x) (s.letters it).y 15 vmem =
        .ok (paint ((s.letters it).sprite.layer font) vmem) := by
      rw [hrow, hcol]
      exact (Letter.sprite_fits hon.1 hplaced.1).draw vmem
    rw [drawLetters, hdraw, done_bind, ih (Nat.le_of_succ_le_succ hn) hseg hon.2 hplaced.2, paint_paint]
    rfl

/-- The counters are on the screen. -/
theorem counters_fit {keyCode fps : ℤ} (hkey : IsInt keyCode) (hfps : IsInt fps) (hhit : IsInt s.hit)
    (hmiss : IsInt s.miss) : ∀ t ∈ counters keyCode fps s, t.Fits := by
  have hkeyLen := itoa_length hkey
  have hhitLen := itoa_length hhit
  have hmissLen := itoa_length hmiss
  have hfpsLen := itoa_length hfps
  have hlen : fpsText.length = 3 := rfl
  have hascii : ∀ ch ∈ fpsText, ch &&& 0x80 = 0 := by decide
  unfold counters
  simp only [List.forall_mem_cons]
  refine ⟨⟨?_, ?_, itoa_ascii _⟩, ⟨?_, ?_, itoa_ascii _⟩, ⟨?_, ?_, itoa_ascii _⟩, ⟨?_, ?_, itoa_ascii _⟩,
    ⟨?_, ?_, hascii⟩, fun _ h => absurd h List.not_mem_nil⟩ <;>
  · simp only [hlen]
    omega

/-- Every text of a frame is on the screen. -/
theorem texts_fit {keyCode fps : ℤ} (h : Good k s l) (hplaced : ∀ i ∈ l, (s.letters i).Placed)
    (hcounters : ∀ t ∈ counters keyCode fps s, t.Fits) : ∀ t ∈ texts keyCode fps s l, t.Fits := by
  intro t ht
  rcases List.mem_append.mp ht with ht | ht
  · obtain ⟨i, hi, rfl⟩ := List.mem_map.mp ht
    exact Letter.sprite_fits (h.onScreen i hi) (hplaced i hi)
  · exact hcounters t ht

/-- **A frame** is drawn inside the buffer, and is the texts, one over the other. -/
theorem redrawScreen_eq {keyCode fps : ℤ} (h : Good k s l) (hplaced : ∀ i ∈ l, (s.letters i).Placed)
    (hcounters : ∀ t ∈ counters keyCode fps s, t.Fits) (vmem : Frame) :
    redrawScreen font keyCode fps s vmem =
      .ok (paint (layers (Text.layer font) (texts keyCode fps s l)) (prepareBuffer vmem)) := by
  have hbottom : scrHeight - 8 = ((192 : ℕ) : ℤ) := rfl
  have hzero : (0 : ℤ) = ((0 : ℕ) : ℤ) := rfl
  have hbehind : ((itoa fps).length : ℤ) * 8 = (((itoa fps).length * 8 : ℕ) : ℤ) := by push_cast; rfl
  have hright : ∀ t : List Byte, 320 - t.length * 8 + 8 * t.length ≤ 320 →
      ((scrWidth : ℕ) : ℤ) - (t.length : ℤ) * 8 = ((320 - t.length * 8 : ℕ) : ℤ) := by
    intro t ht
    unfold scrWidth
    omega
  have hfits := hcounters
  unfold counters at hfits
  simp only [List.forall_mem_cons] at hfits
  obtain ⟨hkey, hhit, hmiss, hfps, htext, -⟩ := hfits
  unfold redrawScreen
  dsimp only
  rw [drawLetters_eq h.length_le h.inUse.list.seg h.onScreen hplaced, done_bind, hbottom, hright _ hhit.y_le,
    hright _ hmiss.y_le, hbehind, hzero, hkey.draw, done_bind, hhit.draw, done_bind, hmiss.draw, done_bind, hfps.draw,
    done_bind, htext.draw, texts, layers_append]
  simp only [paint_paint, counters, layers, none_stack, stack_assoc]

end Redraw

end Typing

end Nemu
