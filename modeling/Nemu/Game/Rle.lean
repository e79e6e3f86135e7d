/-
# RLE bitmaps

`PAL_RLEBlitToSurface` of `palcommon.c`. A bitmap is runs of pixels and numbers of
pixels to skip. The loop over the pixels of a run goes past those that are not on
the surface: to the left of it, to the right (in steps that get larger), and above
it; below the surface it ends. If each run stays in its row, then what is drawn is
the bitmap, clipped to the surface, and no other byte changes.

No number of the loops is too large for 32 bits.

Key definitions: `Surface`, `runLoop`, `rleRounds`, `rleBlitToSurface`, `drawFrame`, `Bitmap`, `sprite`.
Key theorems: `runLoop_spec`, `rleRounds_spec`, `rleBlitToSurface_rle`, `drawFrame_sprite`, `drawFrame_loadSprite`.
-/
import Nemu.Game.Mkf
import Nemu.Lib.Overlay

namespace Nemu

namespace Rle

open Bytes BitStream Overlay Yj1

/-! ### The code -/

/-- The fields of `SDL_Surface` that are used. -/
structure Surface where
  w : ℕ
  h : ℕ
  pitch : ℕ
  pixels : List Byte

/-- `((LPBYTE)lpDstSurface->pixels)[i] = b`. -/
def store (pixels : List Byte) (i : ℕ) (b : Byte) : Except Stop (List Byte) :=
  if i < pixels.length then return pixels.set i b else throw .outside

section Blit

variable (s : Surface) (w h : ℕ) (dx dy : ℤ)

/-- Where pixel `k` of the bitmap is. -/
def xOf (k : ℕ) : ℤ := (k % w : ℕ) + dx
def yOf (k : ℕ) : ℤ := (k / w : ℕ) + dy

/-- The loop over the `T` pixels of a run at `i`; also returns whether it went to `end`. -/
def runLoop (src : List Byte) (i T : ℕ) : ℕ → ℕ → List Byte → Except Stop (List Byte × Bool)
  | 0, j, pixels => if j < T then throw .outOfFuel else return (pixels, false)
  | fuel + 1, j, pixels =>
    if j < T then
      let y := yOf w dy (i + j)
      let x := xOf w dx (i + j)
      if x < 0 then runLoop src i T fuel (j + (-x - 1).toNat + 1) pixels
      else if x ≥ s.w then runLoop src i T fuel (j + (x - s.w).toNat + 1) pixels
      else if y < 0 then runLoop src i T fuel (j + (-y * w - 1).toNat + 1) pixels
      else if y ≥ s.h then return (pixels, true)
      else do
        let b ← byteAt src j
        let pixels ← store pixels (y.toNat * s.pitch + x.toNat) b
        runLoop src i T fuel (j + 1) pixels
    else return (pixels, false)

/-- The loop over the bitmap, from pixel `i` on. -/
def rleRounds : ℕ → List Byte → ℕ → List Byte → Except Stop (List Byte)
  | 0, _, _, _ => throw .outOfFuel
  | fuel + 1, src, i, pixels =>
    if i < w * h then
      match src with
      | [] => throw .outside
      | T :: src =>
        if T &&& 0x80 ≠ 0 ∧ T.toNat ≤ 0x80 + w then rleRounds fuel src (i + (T.toNat - 0x80)) pixels
        else do
          let r ← runLoop s w dx dy src i T.toNat T.toNat 0 pixels
          if r.2 then return r.1 else rleRounds fuel (src.drop T.toNat) (i + T.toNat) r.1
    else return pixels

end Blit

/-- `PAL_X` and `PAL_Y`. -/
def palX (pos : Word) : ℤ := (pos.setWidth 16).toInt
def palY (pos : Word) : ℤ := ((pos >>> 16).setWidth 16).toInt

/-- `PAL_RLEBlitToSurface`; each round takes a byte. -/
def rleBlitToSurface (bitmap : List Byte) (s : Surface) (pos : Word) : Except Stop (Word × Surface) := do
  let src := if bitmap.take 4 = [0x02, 0, 0, 0] then bitmap.drop 4 else bitmap
  let width ← halfAt src 0
  let height ← halfAt src 2
  let pixels ← rleRounds s width height (palX pos) (palY pos) (src.length + 1) (src.drop 4) 0 s.pixels
  return (0, { s with pixels })

/-- `PAL_SpriteGetFrame`: the offset of a frame, unless there is none. -/
def spriteGetFrame (sprite : List Byte) (iFrameNum : Word) : Except Stop (Option ℕ) := do
  let imagecount ← halfAt sprite 0
  if iFrameNum.toInt < 0 ∨ iFrameNum.toInt ≥ imagecount then return none
  else
    let offset ← halfAt sprite (2 * iFrameNum.toNat)
    return some (2 * offset % 65536)

/-- `PAL_RLEBlitToSurface(PAL_SpriteGetFrame(sprite, iFrameNum), s, pos)`. -/
def drawFrame (sprite : List Byte) (iFrameNum : Word) (s : Surface) (pos : Word) : Except Stop (Word × Surface) := do
  match ← spriteGetFrame sprite iFrameNum with
  | none => return (-1, s)
  | some offset => rleBlitToSurface (sprite.drop offset) s pos

/-! ### The format -/

/-- Some pixels are left as they are, or get these colours. -/
inductive Op where
  | skip (n : ℕ)
  | run (colors : List Byte)

def Op.bytes : Op → List Byte
  | .skip n => [BitVec.ofNat 8 (0x80 + n)]
  | .run colors => BitVec.ofNat 8 colors.length :: colors

def Op.cells : Op → List (Option Byte)
  | .skip n => List.replicate n none
  | .run colors => colors.map some

/-- At pixel `i`: a run stays in its row. -/
def Op.Ok (w i : ℕ) : Op → Prop
  | .skip n => n ≤ 127 ∧ n ≤ w
  | .run colors => colors.length ≤ 127 ∧ i % w + colors.length ≤ w

def OpsOk (w : ℕ) : ℕ → List Op → Prop
  | _, [] => True
  | i, op :: ops => op.Ok w i ∧ OpsOk w (i + op.cells.length) ops

/-- A bitmap; `marked` says that 0x00000002 is in front of it. -/
structure Bitmap where
  marked : Bool
  w : ℕ
  h : ℕ
  ops : List Op

namespace Bitmap

variable (r : Bitmap)

/-- The colours of the pixels, row by row; `none` where it is transparent. -/
def cells : List (Option Byte) := r.ops.flatMap Op.cells

def bytes : List Byte :=
  (if r.marked then [0x02, 0, 0, 0] else []) ++ (half r.w ++ half r.h ++ r.ops.flatMap Op.bytes)

structure Ok : Prop where
  width : r.w < 65536
  height : r.h < 65536
  size : r.cells.length = r.w * r.h
  ops : OpsOk r.w 0 r.ops
  unmarked : r.marked = false → ¬(r.w = 2 ∧ r.h = 0)

/-- The pixel in column `X` of row `Y`, if there is one. -/
def pixel (X Y : ℤ) : Option Byte :=
  if 0 ≤ X ∧ X < r.w ∧ 0 ≤ Y ∧ Y < r.h then r.cells.getD (Y.toNat * r.w + X.toNat) none else none

end Bitmap

/-- The bitmap is on the surface: a point shows its pixel, if there is one, and nothing else has changed. -/
def Bitmap.Shown (r : Bitmap) (s : Surface) (pos : Word) (pixels : List Byte) : Prop :=
  (∀ x y, x < s.w → y < s.h → pixels[y * s.pitch + x]? = s.pixels[y * s.pitch + x]?.map fun b =>
    (r.pixel (x - palX pos) (y - palY pos)).getD b) ∧
  ∀ o, (∀ x y, x < s.w → y < s.h → o ≠ y * s.pitch + x) → pixels[o]? = s.pixels[o]?

/-- The rows are in the memory of the surface, apart from each other. -/
structure Surface.Ok (s : Surface) : Prop where
  pitch : s.w ≤ s.pitch
  rows : s.h * s.pitch ≤ s.pixels.length

/-! ### What is drawn -/

section Drawn

variable (s : Surface) (w : ℕ) (dx dy : ℤ) (cells : List (Option Byte))

/-- Pixel `k` is on the surface. -/
def Visible (k : ℕ) : Prop := 0 ≤ xOf w dx k ∧ xOf w dx k < s.w ∧ 0 ≤ yOf w dy k ∧ yOf w dy k < s.h

instance (k : ℕ) : Decidable (Visible s w dx dy k) := inferInstanceAs (Decidable (_ ∧ _))

/-- Its byte. -/
def offsetOf (k : ℕ) : ℕ := (yOf w dy k).toNat * s.pitch + (xOf w dx k).toNat

/-- The layer of one pixel. -/
def place (k o : ℕ) : Option Byte :=
  if Visible s w dx dy k ∧ o = offsetOf s w dx dy k then cells.getD k none else none

/-- The first `n` pixels. -/
def drawn (n : ℕ) : ℕ → Option Byte := layers (place s w dx dy cells) (List.range n)

variable {s w dx dy cells} {m n k : ℕ}

theorem drawn_succ (n : ℕ) : drawn s w dx dy cells (n + 1) = stack (place s w dx dy cells n) (drawn s w dx dy cells n) := by
  rw [drawn, List.range_succ, layers_append, layers, layers, none_stack]
  rfl

/-- Pixels that are not seen. -/
theorem drawn_skip (hmn : m ≤ n) (h : ∀ k, m ≤ k → k < n → ¬Visible s w dx dy k ∨ cells.getD k none = none) :
    drawn s w dx dy cells n = drawn s w dx dy cells m := by
  induction n, hmn using Nat.le_induction with
  | base => rfl
  | succ n hmn ih =>
    have hplace : place s w dx dy cells n = fun _ => none := by
      funext o
      unfold place
      rcases h n hmn n.lt_succ_self with hv | hc
      · rw [if_neg fun hand => hv hand.1]
      · rw [hc, ite_self]
    rw [drawn_succ, hplace, none_stack]
    exact ih fun k hk hlt => h k hk (hlt.trans n.lt_succ_self)

theorem drawn_put {b : Byte} (hv : Visible s w dx dy k) (hc : cells.getD k none = some b) :
    drawn s w dx dy cells (k + 1) = stack (dot (offsetOf s w dx dy k) b) (drawn s w dx dy cells k) := by
  have hplace : place s w dx dy cells k = dot (offsetOf s w dx dy k) b := by
    funext o
    unfold place dot
    rw [hc]
    by_cases ho : o = offsetOf s w dx dy k
    · rw [if_pos ⟨hv, ho⟩, if_pos ho]
    · rw [if_neg fun hand => ho hand.2, if_neg ho]
  rw [drawn_succ, hplace]

/-- A pixel that is seen is in the memory of the surface. -/
theorem offsetOf_lt (hs : s.Ok) (hv : Visible s w dx dy k) : offsetOf s w dx dy k < s.pixels.length := by
  obtain ⟨hx, hx', hy, hy'⟩ := hv
  have hrow : (yOf w dy k).toNat + 1 ≤ s.h := by omega
  have hcol : (xOf w dx k).toNat < s.w := by omega
  calc offsetOf s w dx dy k < (yOf w dy k).toNat * s.pitch + s.pitch :=
        Nat.add_lt_add_left (hcol.trans_le hs.pitch) _
    _ = ((yOf w dy k).toNat + 1) * s.pitch := (Nat.succ_mul _ _).symm
    _ ≤ s.h * s.pitch := Nat.mul_le_mul_right _ hrow
    _ ≤ s.pixels.length := hs.rows

/-- The pixels of a row. -/
theorem row {i j : ℕ} (h : i % w + j < w) : (i + j) / w = i / w ∧ (i + j) % w = i % w + j := by
  have hw : 0 < w := Nat.zero_lt_of_lt h
  have hsplit : i + j = i % w + j + w * (i / w) := by
    have hdiv := Nat.mod_add_div i w
    omega
  constructor
  · rw [hsplit, Nat.add_mul_div_left _ _ hw, Nat.div_eq_of_lt h, Nat.zero_add]
  · rw [hsplit, Nat.add_mul_mod_self_left, Nat.mod_eq_of_lt h]

end Drawn

/-! ### The loops -/

section Loops

variable {s : Surface} {w h : ℕ} {dx dy : ℤ} {cells : List (Option Byte)}

/-- **The loop over a run** draws what is seen of it. If it goes to `end`, nothing is seen from there on. -/
theorem runLoop_spec {v colors : List Byte} (rest : List Byte) {i : ℕ} (hs : s.Ok) (hv : v.length = s.pixels.length)
    (hrow : i % w + colors.length ≤ w) (hcells : ∀ j (hj : j < colors.length), cells.getD (i + j) none = some colors[j]) :
    ∀ fuel j, colors.length ≤ fuel + j → ∃ e,
      runLoop s w dx dy (colors ++ rest) i colors.length fuel j
        (paintList (drawn s w dx dy cells (i + min j colors.length)) v) =
          .ok (paintList (drawn s w dx dy cells (i + colors.length)) v, e) ∧
      (e = true → ∀ k, i ≤ k → ¬Visible s w dx dy k)
  | 0, j, hfuel => by
    have hj : ¬j < colors.length := by omega
    refine ⟨false, ?_, nofun⟩
    rw [runLoop, if_neg hj, Nat.min_eq_right (by omega)]
    rfl
  | fuel + 1, j, hfuel => by
    have ih := runLoop_spec rest hs hv hrow hcells fuel
    by_cases hj : j < colors.length
    · rw [runLoop, if_pos hj]
      dsimp only
      obtain ⟨hdiv, hmod⟩ := row (w := w) (i := i) (j := j) (by omega)
      -- the pixels of the run are in one row
      have hx : ∀ k, j ≤ k → k < colors.length → xOf w dx (i + k) = xOf w dx (i + j) + (k - j) := by
        intro k hk hlt
        obtain ⟨-, hmod'⟩ := row (w := w) (i := i) (j := k) (by omega)
        rw [xOf, xOf, hmod, hmod']
        push_cast
        ring
      have hy : ∀ k, j ≤ k → k < colors.length → yOf w dy (i + k) = yOf w dy (i + j) := by
        intro k hk hlt
        obtain ⟨hdiv', -⟩ := row (w := w) (i := i) (j := k) (by omega)
        rw [yOf, yOf, hdiv, hdiv']
      have hpast : ∀ j', j < j' → (∀ k, j ≤ k → k < j' → k < colors.length → ¬Visible s w dx dy (i + k)) → ∃ e,
          runLoop s w dx dy (colors ++ rest) i colors.length fuel j'
            (paintList (drawn s w dx dy cells (i + min j colors.length)) v) =
              .ok (paintList (drawn s w dx dy cells (i + colors.length)) v, e) ∧
          (e = true → ∀ k, i ≤ k → ¬Visible s w dx dy k) := by
        intro j' hlt hskip
        have hsame : drawn s w dx dy cells (i + min j' colors.length) = drawn s w dx dy cells (i + min j colors.length) := by
          refine drawn_skip (by omega) fun k hk hk' => .inl ?_
          obtain ⟨d, rfl⟩ := Nat.exists_eq_add_of_le (show i ≤ k by omega)
          exact hskip d (by omega) (by omega) (by omega)
        rw [← hsame]
        exact ih j' (by omega)
      by_cases hleft : xOf w dx (i + j) < 0
      · rw [if_pos hleft]
        refine hpast _ (by omega) fun k hk hk' hlt hvis => ?_
        have hxk := hx k hk hlt
        have hpos := hvis.1
        omega
      rw [if_neg hleft]
      by_cases hright : xOf w dx (i + j) ≥ s.w
      · rw [if_pos hright]
        refine hpast _ (by omega) fun k hk hk' hlt hvis => ?_
        have hxk := hx k hk hlt
        have hin := hvis.2.1
        omega
      rw [if_neg hright]
      by_cases habove : yOf w dy (i + j) < 0
      · rw [if_pos habove]
        refine hpast _ (by omega) fun k hk hk' hlt hvis => ?_
        have hyk := hy k hk hlt
        have hpos := hvis.2.2.1
        omega
      rw [if_neg habove]
      by_cases hbelow : yOf w dy (i + j) ≥ s.h
      · rw [if_pos hbelow]
        have hunseen : ∀ k, i ≤ k → ¬Visible s w dx dy k := by
          intro k hk hvis
          have hle : i / w ≤ k / w := Nat.div_le_div_right hk
          have hin := hvis.2.2.2
          unfold yOf at hin hbelow
          rw [hdiv] at hbelow
          omega
        refine ⟨true, ?_, fun _ => hunseen⟩
        have hsame : drawn s w dx dy cells (i + colors.length) = drawn s w dx dy cells (i + min j colors.length) :=
          drawn_skip (by omega) fun k hk _ => .inl (hunseen k (by omega))
        rw [hsame]
        rfl
      · rw [if_neg hbelow]
        have hvis : Visible s w dx dy (i + j) := ⟨by omega, by omega, by omega, by omega⟩
        have hbyte : byteAt (colors ++ rest) j = .ok colors[j] := by
          rw [byteAt, List.getElem?_append_left hj, List.getElem?_eq_getElem hj]
        have hlt : offsetOf s w dx dy (i + j) < (paintList (drawn s w dx dy cells (i + j)) v).length := by
          rw [length_paintList, hv]
          exact offsetOf_lt hs hvis
        have hstore : store (paintList (drawn s w dx dy cells (i + j)) v) (offsetOf s w dx dy (i + j)) colors[j] =
            .ok (paintList (drawn s w dx dy cells (i + (j + 1))) v) := by
          rw [store, if_pos hlt, ← paintList_dot, paintList_paintList, ← drawn_put hvis (hcells j hj)]
          rfl
        obtain ⟨e, hrest, hend⟩ := ih (j + 1) (by omega)
        refine ⟨e, ?_, hend⟩
        rw [Nat.min_eq_left hj] at hrest
        rw [hbyte, ok_bind, Nat.min_eq_left hj.le]
        unfold offsetOf at hstore
        rw [hstore, ok_bind, hrest]
    · refine ⟨false, ?_, nofun⟩
      rw [runLoop, if_neg hj, Nat.min_eq_right (by omega)]
      rfl

/-- The bit that `T & 0x80` tests. -/
theorem highBit_iff (T : Byte) : T &&& 0x80 ≠ 0 ↔ 128 ≤ T.toNat := by
  have hbit : T &&& 0x80 = 0 ↔ T.getLsbD 7 = false := by
    revert T
    decide
  rw [Ne, hbit, ← BitVec.msb_eq_getLsbD_last T, BitVec.msb_eq_decide]
  simp

/-- **The loop over a bitmap**, by induction on its operations. -/
theorem rleRounds_spec {v : List Byte} (trailing : List Byte) (dx dy : ℤ) (hs : s.Ok) (hv : v.length = s.pixels.length) (hsize : cells.length = w * h) :
    ∀ (ops : List Op) (pre : List (Option Byte)) (fuel : ℕ), cells = pre ++ ops.flatMap Op.cells → OpsOk w pre.length ops →
      ops.length < fuel →
      rleRounds s w h dx dy fuel (ops.flatMap Op.bytes ++ trailing) pre.length
        (paintList (drawn s w dx dy cells pre.length) v) = .ok (paintList (drawn s w dx dy cells (w * h)) v)
  | _, _, 0, _, _, hfuel => absurd hfuel (Nat.not_lt_zero _)
  | [], pre, fuel + 1, hcells, _, _ => by
    have hlen : pre.length = w * h := by rw [← hsize, hcells, List.flatMap_nil, List.append_nil]
    unfold rleRounds
    rw [hlen, if_neg (lt_irrefl _)]
    rfl
  | op :: ops, pre, fuel + 1, hcells, ⟨hop, hops⟩, hfuel => by
    rw [List.length_cons] at hfuel
    have happ : cells = pre ++ op.cells ++ ops.flatMap Op.cells := by rw [hcells, List.flatMap_cons, List.append_assoc]
    have hnext : (pre ++ op.cells).length = pre.length + op.cells.length := List.length_append
    have ih := rleRounds_spec trailing dx dy hs hv hsize ops (pre ++ op.cells) fuel happ (by rwa [hnext]) (by omega)
    rw [hnext] at ih
    have hle : pre.length + op.cells.length ≤ w * h := by
      rw [← hsize, happ, List.length_append, hnext]
      exact Nat.le_add_right _ _
    have hcell : ∀ j (hj : j < op.cells.length), cells.getD (pre.length + j) none = op.cells[j] := by
      intro j hj
      rw [happ, List.getD_append _ _ _ _ (by omega), List.getD_append_right _ _ _ _ (by omega), Nat.add_sub_cancel_left,
        List.getD_eq_getElem _ _ hj]
    unfold rleRounds
    by_cases hlt : pre.length < w * h
    · rw [if_pos hlt, List.flatMap_cons]
      cases op with
      | skip n =>
        obtain ⟨hn, hw⟩ := hop
        have hT : (BitVec.ofNat 8 (0x80 + n)).toNat = 0x80 + n := by
          rw [BitVec.toNat_ofNat, Nat.mod_eq_of_lt (by omega)]
        have hlen : (Op.skip n).cells.length = n := List.length_replicate
        have hskip : BitVec.ofNat 8 (0x80 + n) &&& 0x80 ≠ 0 ∧ (BitVec.ofNat 8 (0x80 + n)).toNat ≤ 0x80 + w :=
          ⟨(highBit_iff _).mpr (by omega), by omega⟩
        rw [hlen] at ih
        have hsame : drawn s w dx dy cells (pre.length + n) = drawn s w dx dy cells pre.length := by
          refine drawn_skip (Nat.le_add_right _ _) fun k hk hk' => .inr ?_
          obtain ⟨j, rfl⟩ := Nat.exists_eq_add_of_le hk
          rw [hcell j (by omega)]
          exact List.getElem_replicate _
        rw [hsame] at ih
        have hbytes : (Op.skip n).bytes ++ ops.flatMap Op.bytes ++ trailing =
            BitVec.ofNat 8 (0x80 + n) :: (ops.flatMap Op.bytes ++ trailing) := by
          simp [Op.bytes]
        rw [hbytes]
        dsimp only
        rw [if_pos hskip, hT, Nat.add_sub_cancel_left, ih]
      | run colors =>
        obtain ⟨hn, hrow⟩ := hop
        have hT : (BitVec.ofNat 8 colors.length).toNat = colors.length := by
          rw [BitVec.toNat_ofNat, Nat.mod_eq_of_lt (by omega)]
        have hlen : (Op.run colors).cells.length = colors.length := List.length_map ..
        have hskip : ¬(BitVec.ofNat 8 colors.length &&& 0x80 ≠ 0 ∧ (BitVec.ofNat 8 colors.length).toNat ≤ 0x80 + w) := by
          rw [highBit_iff]
          omega
        rw [hlen] at ih hle
        obtain ⟨e, hrun, hend⟩ := runLoop_spec (ops.flatMap Op.bytes ++ trailing) hs hv hrow
          (fun j hj => by rw [hcell j (by omega)]; exact List.getElem_map _) colors.length 0 (Nat.le_refl _)
        rw [Nat.zero_min, Nat.add_zero] at hrun
        have hbytes : (Op.run colors).bytes ++ ops.flatMap Op.bytes ++ trailing =
            BitVec.ofNat 8 colors.length :: (colors ++ (ops.flatMap Op.bytes ++ trailing)) := by
          simp [Op.bytes]
        rw [hbytes]
        dsimp only
        rw [if_neg hskip, hT, hrun, ok_bind]
        dsimp only
        cases e with
        | true =>
          have hunseen := hend rfl
          have hsame : drawn s w dx dy cells (w * h) = drawn s w dx dy cells (pre.length + colors.length) :=
            drawn_skip hle fun k hk _ => .inl (hunseen k (by omega))
          rw [if_pos rfl, hsame]
          rfl
        | false => rw [if_neg Bool.false_ne_true, List.drop_left, ih]
    · have hall : pre.length = w * h := by omega
      rw [if_neg hlt, hall]
      rfl

end Loops

/-! ### The bitmap on the surface -/

section Result

variable {s : Surface} {r : Bitmap} {dx dy : ℤ}

/-- Two places in rows are one if they have the same byte. -/
theorem place_inj {p x y x' y' : ℕ} (hx : x < p) (hx' : x' < p) (h : y * p + x = y' * p + x') : y = y' ∧ x = x' := by
  have hp : 0 < p := Nat.zero_lt_of_lt hx
  have hdiv : (y * p + x) / p = (y' * p + x') / p := by rw [h]
  have hmod : (y * p + x) % p = (y' * p + x') % p := by rw [h]
  rw [Nat.mul_comm y, Nat.mul_comm y', Nat.mul_add_div hp, Nat.mul_add_div hp, Nat.div_eq_of_lt hx, Nat.div_eq_of_lt hx'] at hdiv
  rw [Nat.mul_comm y, Nat.mul_comm y', Nat.mul_add_mod, Nat.mul_add_mod, Nat.mod_eq_of_lt hx, Nat.mod_eq_of_lt hx'] at hmod
  exact ⟨by omega, hmod⟩

/-- What is drawn at a point of the surface. -/
theorem drawn_at (hs : s.Ok) {x y : ℕ} (hx : x < s.w) (hy : y < s.h) :
    drawn s r.w dx dy r.cells (r.w * r.h) (y * s.pitch + x) = r.pixel (x - dx) (y - dy) := by
  -- the pixel that is seen there is in this column and row
  have hback : ∀ k, Visible s r.w dx dy k → y * s.pitch + x = offsetOf s r.w dx dy k →
      xOf r.w dx k = x ∧ yOf r.w dy k = y := by
    intro k hvis ho
    obtain ⟨hk, hk', hl, hl'⟩ := hvis
    have hpitch := hs.pitch
    obtain ⟨hy', hx'⟩ := place_inj (by omega) (by omega) ho
    omega
  unfold Bitmap.pixel
  by_cases hin : 0 ≤ (x : ℤ) - dx ∧ (x : ℤ) - dx < r.w ∧ 0 ≤ (y : ℤ) - dy ∧ (y : ℤ) - dy < r.h
  · rw [if_pos hin]
    obtain ⟨X, hX⟩ := Int.eq_ofNat_of_zero_le hin.1
    obtain ⟨Y, hY⟩ := Int.eq_ofNat_of_zero_le hin.2.2.1
    have hXw : X < r.w := by omega
    have hYh : Y < r.h := by omega
    obtain ⟨hdiv, hmod⟩ : (Y * r.w + X) / r.w = Y ∧ (Y * r.w + X) % r.w = X := by
      rw [Nat.mul_comm Y, Nat.mul_add_div (Nat.zero_lt_of_lt hXw), Nat.mul_add_mod, Nat.div_eq_of_lt hXw, Nat.mod_eq_of_lt hXw]
      exact ⟨rfl, rfl⟩
    have hxk : xOf r.w dx (Y * r.w + X) = x := by
      rw [xOf, hmod]
      omega
    have hyk : yOf r.w dy (Y * r.w + X) = y := by
      rw [yOf, hdiv]
      omega
    have hvis : Visible s r.w dx dy (Y * r.w + X) := by
      unfold Visible
      rw [hxk, hyk]
      omega
    have hoff : y * s.pitch + x = offsetOf s r.w dx dy (Y * r.w + X) := by
      rw [offsetOf, hxk, hyk]
      rfl
    have hmem : Y * r.w + X ∈ List.range (r.w * r.h) := by
      refine List.mem_range.mpr ?_
      calc Y * r.w + X < Y * r.w + r.w := Nat.add_lt_add_left hXw _
        _ = r.w * (Y + 1) := by ring
        _ ≤ r.w * r.h := Nat.mul_le_mul_left _ hYh
    have hother : ∀ k ∈ List.range (r.w * r.h), k ≠ Y * r.w + X →
        place s r.w dx dy r.cells k (y * s.pitch + x) = none := by
      intro k _ hne
      refine if_neg fun hand => hne ?_
      obtain ⟨hxk', hyk'⟩ := hback k hand.1 hand.2
      have hkx : k % r.w = X := by unfold xOf at hxk'; omega
      have hky : k / r.w = Y := by unfold yOf at hyk'; omega
      rw [← Nat.div_add_mod k r.w, hkx, hky, Nat.mul_comm]
    rw [drawn, layers_eq_of_unique hmem hother, place, if_pos ⟨hvis, hoff⟩, hX, hY]
    rfl
  · rw [if_neg hin]
    refine layers_eq_none fun k hk => if_neg fun hand => hin ?_
    obtain ⟨hxk, hyk⟩ := hback k hand.1 hand.2
    have hkn := List.mem_range.mp hk
    have hw : 0 < r.w := Nat.pos_of_ne_zero fun h0 => by simp [h0] at hkn
    have hkx := Nat.mod_lt k hw
    have hky : k / r.w < r.h := Nat.div_lt_of_lt_mul hkn
    unfold xOf at hxk
    unfold yOf at hyk
    generalize k % r.w = m at hxk hkx
    generalize k / r.w = q at hyk hky
    omega

/-- And nothing anywhere else. -/
theorem drawn_elsewhere {o : ℕ} (h : ∀ x y, x < s.w → y < s.h → o ≠ y * s.pitch + x) (n : ℕ) :
    drawn s r.w dx dy r.cells n o = none := by
  refine layers_eq_none fun k _ => if_neg fun hand => ?_
  obtain ⟨⟨hx, hx', hy, hy'⟩, ho⟩ := hand
  exact h (xOf r.w dx k).toNat (yOf r.w dy k).toNat (by omega) (by omega) ho

theorem halfAt_half {v : ℕ} {pre post : List Byte} (hv : v < 65536) : halfAt (pre ++ (half v ++ post)) pre.length = .ok v := by
  have hword : word16 (half v) 0 = some ((BitVec.ofNat 8 v).toNat + 256 * (BitVec.ofNat 8 (v / 256)).toNat) := rfl
  rw [toNat_half, Nat.mod_eq_of_lt hv] at hword
  rw [← List.append_assoc, ← Nat.add_zero pre.length, halfAt_append (by simp), halfAt_of_word16 hword]

/-- The mark in front of a bitmap is skipped. -/
theorem unmark (hr : r.Ok) (trailing : List Byte) :
    (if (r.bytes ++ trailing).take 4 = [0x02, 0, 0, 0] then (r.bytes ++ trailing).drop 4 else r.bytes ++ trailing) =
      half r.w ++ half r.h ++ (r.ops.flatMap Op.bytes ++ trailing) := by
  have hw := toNat_half r.w
  have hh := toNat_half r.h
  have hwidth := hr.width
  have hheight := hr.height
  unfold Bitmap.bytes
  cases hm : r.marked with
  | true =>
    rw [if_pos rfl]
    exact (if_pos rfl).trans (by simp)
  | false =>
    have hne : ¬[BitVec.ofNat 8 r.w, BitVec.ofNat 8 (r.w / 256), BitVec.ofNat 8 r.h, BitVec.ofNat 8 (r.h / 256)] = [0x02, 0, 0, 0] := by
      intro h
      simp only [List.cons.injEq, and_true] at h
      obtain ⟨h₀, h₁, h₂, h₃⟩ := h
      rw [h₀, h₁] at hw
      rw [h₂, h₃] at hh
      refine hr.unmarked hm ⟨?_, ?_⟩
      · rw [Nat.mod_eq_of_lt hwidth] at hw
        exact hw.symm
      · rw [Nat.mod_eq_of_lt hheight] at hh
        exact hh.symm
    exact (if_neg hne).trans (by simp)

theorem length_ops_le (ops : List Op) : ops.length ≤ (ops.flatMap Op.bytes).length := by
  induction ops with
  | nil => exact le_rfl
  | cons op ops ih =>
    rw [List.length_cons, List.flatMap_cons, List.length_append]
    have hone : 1 ≤ op.bytes.length := by cases op <;> simp [Op.bytes]
    omega

/-- The header is read, and then the rounds draw what is visible. -/
theorem Bitmap.Ok.blit (hr : r.Ok) (hs : s.Ok) (trailing : List Byte) (pos : Word) :
    ∃ pixels, rleBlitToSurface (r.bytes ++ trailing) s pos = .ok (0, { s with pixels }) ∧ r.Shown s pos pixels := by
  have hwidth : halfAt (half r.w ++ half r.h ++ (r.ops.flatMap Op.bytes ++ trailing)) 0 = .ok r.w := by
    have h := @halfAt_half r.w [] (half r.h ++ (r.ops.flatMap Op.bytes ++ trailing)) hr.width
    rwa [List.nil_append, ← List.append_assoc] at h
  have hheight : halfAt (half r.w ++ half r.h ++ (r.ops.flatMap Op.bytes ++ trailing)) 2 = .ok r.h := by
    have h := @halfAt_half r.h (half r.w) (r.ops.flatMap Op.bytes ++ trailing) hr.height
    rwa [← List.append_assoc] at h
  have hrun := rleRounds_spec (v := s.pixels) trailing (palX pos) (palY pos) hs rfl hr.size r.ops []
    ((half r.w ++ half r.h ++ (r.ops.flatMap Op.bytes ++ trailing)).length + 1) rfl hr.ops (by
      have hle := length_ops_le r.ops
      simp only [List.length_append]
      omega)
  have hnone : drawn s r.w (palX pos) (palY pos) r.cells 0 = fun _ => none := rfl
  rw [List.length_nil, hnone, paintList_none] at hrun
  refine ⟨paintList (drawn s r.w (palX pos) (palY pos) r.cells (r.w * r.h)) s.pixels, ?_, fun x y hx hy => ?_, fun o ho => ?_⟩
  · unfold rleBlitToSurface
    rw [unmark hr trailing]
    dsimp only
    rw [hwidth, ok_bind, hheight, ok_bind]
    have hdrop : (half r.w ++ half r.h ++ (r.ops.flatMap Op.bytes ++ trailing)).drop 4 = r.ops.flatMap Op.bytes ++ trailing := rfl
    rw [hdrop, hrun]
    rfl
  · rw [getElem?_paintList, drawn_at hs hx hy]
  · rw [getElem?_paintList, drawn_elsewhere ho]
    cases s.pixels[o]? <;> rfl

/-- **A bitmap is drawn**, clipped to the surface. -/
theorem rleBlitToSurface_rle (hr : r.Ok) (hs : s.Ok) (trailing : List Byte) (pos : Word) :
    ∃ pixels, rleBlitToSurface (r.bytes ++ trailing) s pos = .ok (0, { s with pixels }) ∧ r.Shown s pos pixels :=
  hr.blit hs trailing pos

end Result

/-- Three columns and two rows, the second one with its pixels to the right. -/
def corner : Bitmap := ⟨true, 3, 2, [.run [1, 2], .skip 2, .run [3, 4]]⟩

theorem ok_corner : corner.Ok where
  width := by decide
  height := by decide
  size := rfl
  ops := ⟨⟨by decide, by decide⟩, ⟨by decide, by decide⟩, ⟨by decide, by decide⟩, trivial⟩
  unmarked := nofun

def twoByTwo : Surface := ⟨2, 2, 4, List.replicate 8 9⟩

theorem ok_twoByTwo : twoByTwo.Ok where
  pitch := by decide
  rows := by decide

/-- One column is to the left of the surface. -/
theorem rleBlitToSurface_rle_corner : ∃ pixels, rleBlitToSurface (corner.bytes ++ []) twoByTwo 0x0000ffff =
    .ok (0, { twoByTwo with pixels }) ∧ corner.Shown twoByTwo 0x0000ffff pixels :=
  rleBlitToSurface_rle ok_corner ok_twoByTwo [] _

/-! ### Sprites

A sprite is the offsets of its frames, and of their end, as numbers of 16-bit words; and the frames. -/

section Sprites

variable {frames : List (List Byte)} {i : ℕ}

/-- Where frame `i` starts. -/
def frameOffset (frames : List (List Byte)) (i : ℕ) : ℕ := 2 * (frames.length + 1) + (frames.take i).flatten.length

def sprite (frames : List (List Byte)) : List Byte :=
  ((List.range (frames.length + 1)).flatMap fun i => half (frameOffset frames i / 2)) ++ frames.flatten

theorem frameOffset_even (heven : ∀ f ∈ frames, f.length % 2 = 0) (i : ℕ) : frameOffset frames i % 2 = 0 := by
  have hsum : ∀ l : List (List Byte), (∀ f ∈ l, f.length % 2 = 0) → l.flatten.length % 2 = 0 := by
    intro l hl
    induction l with
    | nil => rfl
    | cons f l ih =>
      rw [List.forall_mem_cons] at hl
      have hrest := ih hl.2
      have hfirst := hl.1
      rw [List.flatten_cons, List.length_append]
      omega
  have htake := hsum (frames.take i) fun f hf => heven f (List.mem_of_mem_take hf)
  rw [frameOffset]
  omega

theorem halfAt_sprite (hi : i ≤ frames.length) (hsmall : frameOffset frames i < 131072) (trailing : List Byte) :
    halfAt (sprite frames ++ trailing) (2 * i) = .ok (frameOffset frames i / 2) := by
  have hrange : i < (List.range (frames.length + 1)).length := by
    rw [List.length_range]
    omega
  have hlen := Mkf.length_table (f := fun i => half (frameOffset frames i / 2)) (fun _ => length_half _) (List.range (frames.length + 1))
  rw [List.length_range] at hlen
  have hbyte : ∀ k < 2, (sprite frames ++ trailing)[2 * i + k]? = (half (frameOffset frames i / 2))[k]? := by
    intro k hk
    rw [sprite, List.append_assoc, List.getElem?_append_left (by omega),
      Mkf.getElem?_table (fun _ => length_half _) hrange hk, List.getElem_range]
  have hlow : (sprite frames ++ trailing)[2 * i]? = (half (frameOffset frames i / 2))[0]? := hbyte 0 (by norm_num)
  have hword : word16 (sprite frames ++ trailing) (2 * i) = some ((BitVec.ofNat 8 (frameOffset frames i / 2)).toNat +
      256 * (BitVec.ofNat 8 (frameOffset frames i / 2 / 256)).toNat) := by
    rw [word16, hlow, hbyte 1 (by norm_num)]
    rfl
  rw [toNat_half, Nat.mod_eq_of_lt (by omega)] at hword
  exact halfAt_of_word16 hword

theorem drop_sprite (h : i < frames.length) (trailing : List Byte) :
    ∃ rest, (sprite frames ++ trailing).drop (frameOffset frames i) = frames[i] ++ rest := by
  have hlen : (((List.range (frames.length + 1)).flatMap fun i => half (frameOffset frames i / 2)) ++
      (frames.take i).flatten).length = frameOffset frames i := by
    rw [List.length_append, Mkf.length_table fun _ => length_half _, List.length_range, frameOffset]
  have hsplit : sprite frames ++ trailing = ((List.range (frames.length + 1)).flatMap fun i => half (frameOffset frames i / 2)) ++
      (frames.take i).flatten ++ (frames[i] ++ ((frames.drop (i + 1)).flatten ++ trailing)) := by
    rw [sprite, Mkf.flatten_split h]
    simp only [List.append_assoc]
  exact ⟨_, by rw [hsplit, ← hlen, List.drop_left]⟩

variable {s : Surface} {r : Bitmap} {n : Word} (heven : ∀ f ∈ frames, f.length % 2 = 0)
  (hsmall : frameOffset frames n.toNat < 65536) {pad : List Byte} (hframe : frames[n.toNat]? = some (r.bytes ++ pad))
  (hr : r.Ok) (hs : s.Ok)

include heven hsmall hframe hr hs

/-- **A frame of a sprite is drawn.** -/
theorem drawFrame_sprite (trailing : List Byte) (pos : Word) :
    ∃ pixels, drawFrame (sprite frames ++ trailing) n s pos = .ok (0, { s with pixels }) ∧ r.Shown s pos pixels := by
  obtain ⟨hn, hget⟩ := List.getElem?_eq_some_iff.mp hframe
  have heven' := frameOffset_even heven n.toNat
  have hcount : halfAt (sprite frames ++ trailing) 0 = .ok (frames.length + 1) := by
    have hzero : frameOffset frames 0 = 2 * (frames.length + 1) := rfl
    have hbound : 2 * (frames.length + 1) ≤ frameOffset frames n.toNat := Nat.le_add_right _ _
    have h := halfAt_sprite (Nat.zero_le frames.length) (by omega) trailing
    rwa [hzero, Nat.mul_div_cancel_left _ (by norm_num)] at h
  have hbound : 2 * (frames.length + 1) ≤ frameOffset frames n.toNat := Nat.le_add_right _ _
  have hint : n.toInt = n.toNat := BitVec.toInt_eq_toNat_of_lt (by omega)
  have hinside : ¬(n.toInt < 0 ∨ n.toInt ≥ (frames.length + 1 : ℕ)) := by omega
  obtain ⟨rest, hrest⟩ := drop_sprite hn trailing
  obtain ⟨pixels, hrun, hshown⟩ := hr.blit hs (pad ++ rest) pos
  have hoffset : 2 * (frameOffset frames n.toNat / 2) % 65536 = frameOffset frames n.toNat := by omega
  refine ⟨pixels, ?_, hshown⟩
  rw [drawFrame, spriteGetFrame, hcount, ok_bind, if_neg hinside, halfAt_sprite hn.le (by omega) trailing, ok_bind]
  show rleBlitToSurface ((sprite frames ++ trailing).drop (2 * (frameOffset frames n.toNat / 2) % 65536)) s pos = _
  rw [hoffset, hrest, hget, List.append_assoc, hrun]

/-- **From the archive to the surface**: a sprite that is a chunk of an archive, packed in whatever way, is loaded,
and its frame is drawn. -/
theorem drawFrame_loadSprite {chunks : List (List Byte)} {c : Word} {f : File} {after : List Byte} (junk junk' : Word) (at' : ℕ)
    {malloc : ℕ → Option (List Byte)} (hsize : (Mkf.archive chunks).length < 2 ^ 31) (hf : f.Ok) (hcontents : f.contents = sprite frames)
    (hchunk : chunks[c.toNat]? = some (f.bytes ++ after))
    (hmalloc : ∀ k ∈ [f.contents.length, (f.bytes ++ after).length, treeSize f.nodes.length],
      ∃ buf, malloc k = some buf ∧ buf.length = k) (pos : Word) :
    ∃ sprite fp pixels, Mkf.loadSprite junk junk' malloc c (some ⟨Mkf.archive chunks, at'⟩) =
        .ok (some (BitVec.ofNat 32 f.contents.length, sprite, fp)) ∧
      drawFrame sprite n s pos = .ok (0, { s with pixels }) ∧ r.Shown s pos pixels := by
  have hne : f.contents ≠ [] := by
    intro hnil
    have hlen := congrArg List.length (hcontents.symm.trans hnil)
    rw [sprite, List.length_append, Mkf.length_table fun _ => length_half _, List.length_range, List.length_nil] at hlen
    omega
  obtain ⟨at'', hload⟩ := Mkf.loadSprite_file junk at' junk' hsize hchunk hf hne hmalloc
  obtain ⟨pixels, hdraw, hshown⟩ := drawFrame_sprite heven hsmall hframe hr hs [] pos
  rw [List.append_nil, ← hcontents] at hdraw
  exact ⟨f.contents, _, pixels, hload, hdraw, hshown⟩

end Sprites

/-- A sprite of one frame, in a stored block. -/
def cornerFile : File :=
  ⟨0, 0, .node (.leaf 0x41) (.leaf 0x42), [(0x41, true), (0x42, true)], pack [false, false], [.stored (sprite [corner.bytes ++ [0]])]⟩

theorem ok_cornerFile : cornerFile.Ok where
  even := rfl
  nodes := by decide
  lays := ⟨0, rfl, rfl, rfl⟩
  flags := rfl
  leaves := reads_pack _
  count := by decide
  size := by decide
  blocks := ⟨show (sprite [corner.bytes ++ [0]]).length < 65536 by decide, trivial⟩

theorem drawFrame_loadSprite_corner : ∃ loaded fp pixels,
    Mkf.loadSprite 0 0 (fun k => some (List.replicate k 0xcc)) 1 (some ⟨Mkf.archive [[], cornerFile.bytes ++ [0]], 3⟩) =
      .ok (some (20, loaded, fp)) ∧
    drawFrame loaded 0 twoByTwo 0x0000ffff = .ok (0, { twoByTwo with pixels }) ∧ corner.Shown twoByTwo 0x0000ffff pixels :=
  drawFrame_loadSprite (by decide) (by decide) rfl ok_corner ok_twoByTwo 0 0 3 (by decide) ok_cornerFile rfl rfl
    (fun k _ => ⟨_, rfl, List.length_replicate⟩) _

end Rle

end Nemu
