/-
# The ports of the VGA adapter

`vga.c`: the palette ports 0x3C8 and 0x3C9 and the CRTC ports 0x3D4 and 0x3D5.
An OUT stores its bytes and calls the handler of the map that holds all of them.
The CRTC handler looks up a table of 19 bytes with the byte at 0x3D4; the DAC
handler stores through a pointer that an OUT to 0x3C8 sets, that every byte at
0x3C9 advances, and that steps over the fourth byte of each color.

Neither the index nor the pointer is checked. The device is lost (`none`) with
the first access outside its tables. The maps are those of this adapter only: the
other devices' ports are apart from these, and an OUT to them is one that no
handler sees.

Key definitions: `VgaRegs`, `vgaDacIoHandler`, `vgaCrtcIoHandler`, `vgaPorts`,
`Out`, `Within`, `Follows`.
Key theorems: `portWrite_vga`, `portWrite_step`, `runOuts_cases`,
`vgaPorts_within_iff`.
-/
import Nemu.Device.PortIo
import Mathlib.Data.List.Induction

namespace Nemu

open Bytes

/-- The addresses of `palette` and of `screen->format->palette->colors`, an array
of words and a pointer. -/
structure PaletteAddrs where
  palette : ℤ
  colors : ℤ
  palette_aligned : palette % 4 = 0
  colors_aligned : colors % 4 = 0

/-- `color_ptr` (from the start of `palette`), the bytes of `palette`, what SDL
was last given of them, and `vga_crtc_regs`. -/
structure VgaRegs where
  colorPtr : Option ℕ
  palette : ℕ → Byte
  shown : ℕ → Byte
  crtcRegs : ℕ → Byte

/-- `vga_dac_io_handler`. -/
def vgaDacIoHandler (a : PaletteAddrs) (addr _len : ℕ) (isWrite : Bool) (space : ℕ → Byte)
    (v : VgaRegs) : Option VgaRegs :=
  if addr = 0x3C8 ∧ isWrite = true then
    some { v with colorPtr := some (4 * (space 0x3C8).toNat) }
  else if addr = 0x3C9 ∧ isWrite = true then
    match v.colorPtr with
    | none => none
    | some ptr =>
      if ptr < 4 * 256 then
        let palette := Function.update v.palette ptr (space 0x3C9 <<< 2)
        let ptr := ptr + 1
        if (a.palette + ptr - a.colors) % 4 = 3 then
          let ptr := ptr + 1
          let shown := if ptr = 4 * 256 then palette else v.shown
          some { v with colorPtr := some ptr, palette := palette, shown := shown }
        else some { v with colorPtr := some ptr, palette := palette }
      else none
  else some v

/-- `vga_crtc_io_handler`. -/
def vgaCrtcIoHandler (addr _len : ℕ) (isWrite : Bool) (space : ℕ → Byte) (v : VgaRegs) :
    Option ((ℕ → Byte) × VgaRegs) :=
  let index := (space 0x3D4).toNat
  if addr = 0x3D4 ∧ isWrite = true then
    if index < 19 then some (Function.update space 0x3D5 (v.crtcRegs index), v) else none
  else if addr = 0x3D5 ∧ isWrite = true then
    if index < 19 then
      some (space, { v with crtcRegs := Function.update v.crtcRegs index (space 0x3D5) })
    else none
  else some (space, v)

/-- The maps that `init_vga` adds. -/
def vgaMaps (a : PaletteAddrs) : List (PioMap (Option VgaRegs)) :=
  [⟨0x3C8, 0x3C9, fun addr len isWrite space dev =>
      .ok (space, dev.bind (vgaDacIoHandler a addr len isWrite space))⟩,
    ⟨0x3D4, 0x3D5, fun addr len isWrite space dev =>
      match dev.bind (vgaCrtcIoHandler addr len isWrite space) with
      | some (space, v) => .ok (space, some v)
      | none => .ok (space, none)⟩]

/-- The ports after `init_vga`: the static data are zero. -/
def vgaPorts (a : PaletteAddrs) (palette : ℕ → Byte) : PortIo (Option VgaRegs) :=
  ⟨fun _ => 0, vgaMaps a, some ⟨none, palette, palette, fun _ => 0⟩⟩

theorem initVga_vgaPorts (a : PaletteAddrs) (palette : ℕ → Byte) :
    (do
      let s ← addPioMap { vgaPorts a palette with maps := [] } 0x3C8 2 fun addr len isWrite space dev =>
        .ok (space, dev.bind (vgaDacIoHandler a addr len isWrite space))
      addPioMap s 0x3D4 2 fun addr len isWrite space dev =>
        match dev.bind (vgaCrtcIoHandler addr len isWrite space) with
        | some (space, v) => .ok (space, some v)
        | none => .ok (space, none)) = .ok (vgaPorts a palette) := rfl

/-! ### OUT instructions -/

/-- An OUT that `pio_write` accepts. -/
structure Out where
  port : ℕ
  len : ℕ
  data : Word
  ok : PortOk port len

namespace Out

/-- It selects a color: the handler is called with the address 0x3C8. -/
def Selects (o : Out) : Prop := o.port = 0x3C8 ∧ o.len ≤ 2

/-- It stores a byte of a color. -/
def Colors (o : Out) : Prop := o.port = 0x3C9 ∧ o.len = 1

/-- It looks up a CRTC register. -/
def Indexes (o : Out) : Prop := o.port = 0x3D4 ∧ o.len ≤ 2

/-- It writes a CRTC register. -/
def Writes (o : Out) : Prop := o.port = 0x3D5 ∧ o.len = 1

/-- The byte it puts on a port that had `b`. -/
def leaves (o : Out) (p : ℕ) (b : Byte) : Byte :=
  if o.port ≤ p ∧ p < o.port + o.len then byte o.data (p - o.port) else b

instance (o : Out) : Decidable o.Selects := inferInstanceAs (Decidable (_ ∧ _))
instance (o : Out) : Decidable o.Colors := inferInstanceAs (Decidable (_ ∧ _))
instance (o : Out) : Decidable o.Indexes := inferInstanceAs (Decidable (_ ∧ _))
instance (o : Out) : Decidable o.Writes := inferInstanceAs (Decidable (_ ∧ _))

end Out

/-- The OUT instructions of the guest, one after the other. -/
def runOuts : List Out → PortIo (Option VgaRegs) → Except Fault (PortIo (Option VgaRegs))
  | [], s => .ok s
  | o :: outs, s => do
    let s ← portWrite s o.port o.len o.data
    runOuts outs s

/-- The last byte put on port 0x3D4. -/
def crtcIndex (outs : List Out) : Byte := outs.foldl (fun b o => o.leaves 0x3D4 b) 0

/-- The color selected last, and how many bytes were stored since. -/
def selected (outs : List Out) : Option (Byte × ℕ) :=
  outs.foldl (fun c o =>
    if o.Selects then some (byte o.data 0, 0)
    else if o.Colors then c.map fun c => (c.1, c.2 + 1)
    else c) none

/-- After these OUTs the next one uses the tables within their bounds: it selects
one of 19 CRTC registers, or writes to one; a byte of a color is stored after
one was selected, and before three bytes were for it and each one behind it. -/
def Within (outs : List Out) (o : Out) : Prop :=
  (o.Indexes → (byte o.data 0).toNat < 19) ∧
  (o.Writes → (crtcIndex outs).toNat < 19) ∧
  (o.Colors → ∃ c ∈ selected outs, c.2 < 3 * (256 - c.1.toNat))

section Steps

variable {a : PaletteAddrs} {s : PortIo (Option VgaRegs)} {v : VgaRegs} {outs : List Out} {o : Out}

/-- The space after the bytes of an OUT were stored. -/
def Out.put (o : Out) (space : ℕ → Byte) (p : ℕ) : Byte := o.leaves p (space p)

/-- **What an OUT does.** -/
theorem portWrite_vga (hm : s.maps = vgaMaps a) (hdev : s.dev = some v) (o : Out) :
    portWrite s o.port o.len o.data =
      if o.Selects ∨ o.Colors then
        .ok ⟨o.put s.space, vgaMaps a, vgaDacIoHandler a o.port o.len true (o.put s.space) v⟩
      else if o.Indexes ∨ o.Writes then
        match vgaCrtcIoHandler o.port o.len true (o.put s.space) v with
        | some (space, v) => .ok ⟨space, vgaMaps a, some v⟩
        | none => .ok ⟨o.put s.space, vgaMaps a, none⟩
      else .ok ⟨o.put s.space, vgaMaps a, some v⟩ := by
  have hlen : 1 ≤ o.len := by
    rcases o.ok.1 with h | h | h <;> omega
  have hdac : (0x3C8 ≤ o.port ∧ o.port + o.len - 1 ≤ 0x3C9) ↔ o.Selects ∨ o.Colors := by
    unfold Out.Selects Out.Colors
    omega
  have hcrtc : (0x3D4 ≤ o.port ∧ o.port + o.len - 1 ≤ 0x3D5) ↔ o.Indexes ∨ o.Writes := by
    unfold Out.Indexes Out.Writes
    omega
  rw [portWrite, if_pos o.ok, pioCallback]
  simp only [hm, vgaMaps, List.find?_cons, List.find?_nil, hdac, hcrtc, hdev]
  have hspace : (fun n => if o.port ≤ n ∧ n < o.port + o.len then byte o.data (n - o.port) else s.space n) =
      o.put s.space := rfl
  rw [hspace]
  by_cases h₁ : o.Selects ∨ o.Colors
  · simp only [h₁, decide_true, if_true]
    rfl
  · simp only [h₁, decide_false, if_false]
    by_cases h₂ : o.Indexes ∨ o.Writes
    · simp only [h₂, decide_true, if_true, Option.bind_some]
      cases vgaCrtcIoHandler o.port o.len true (o.put s.space) v <;> rfl
    · simp only [h₂, decide_false, if_false]

/-- The registers after the OUTs: the index is at its port, and the pointer is
behind what was stored of the selected color and those after it. -/
structure Follows (outs : List Out) (space : ℕ → Byte) (v : VgaRegs) : Prop where
  index : space 0x3D4 = crtcIndex outs
  ptr : v.colorPtr = (selected outs).map fun c => 4 * c.1.toNat + 4 * (c.2 / 3) + c.2 % 3

theorem crtcIndex_concat : crtcIndex (outs ++ [o]) = o.leaves 0x3D4 (crtcIndex outs) := by
  simp [crtcIndex]

theorem selected_concat (outs : List Out) (o : Out) : selected (outs ++ [o]) =
    if o.Selects then some (byte o.data 0, 0)
    else if o.Colors then (selected outs).map fun c => (c.1, c.2 + 1)
    else selected outs := by
  simp [selected]

/-- The space follows an OUT whatever it is. -/
theorem Follows.put (h : Follows outs s.space v) : o.put s.space 0x3D4 = crtcIndex (outs ++ [o]) := by
  rw [crtcIndex_concat, ← h.index]
  rfl

/-- The test of the handler for the last byte of a color. -/
theorem PaletteAddrs.skips (a : PaletteAddrs) (n : ℕ) : (a.palette + n - a.colors) % 4 = 3 ↔ n % 4 = 3 := by
  have hp := a.palette_aligned
  have hc := a.colors_aligned
  omega

/-- The pointer moves to the next byte of the color, or to the next color. -/
theorem offset_succ (i n : ℕ) : 4 * i + 4 * ((n + 1) / 3) + (n + 1) % 3 =
    if (4 * i + 4 * (n / 3) + n % 3 + 1) % 4 = 3 then 4 * i + 4 * (n / 3) + n % 3 + 2
    else 4 * i + 4 * (n / 3) + n % 3 + 1 := by
  split_ifs <;> omega

/-- An OUT within bounds is followed, one that is not loses the device. -/
def OutStepped (outs : List Out) (o : Out) (t : PortIo (Option VgaRegs)) : Prop :=
  (Within outs o ∧ ∃ w, t.dev = some w ∧ Follows (outs ++ [o]) t.space w) ∨
    (¬ Within outs o ∧ t.dev = none)

/-- The byte at the port of an OUT. -/
theorem Out.put_port (o : Out) (space : ℕ → Byte) : o.put space o.port = byte o.data 0 := by
  have hlen : 1 ≤ o.len := by
    rcases o.ok.1 with h | h | h <;> omega
  rw [Out.put, Out.leaves, if_pos (by omega), Nat.sub_self]

/-- A color is selected. -/
theorem select_step (h : Follows outs s.space v) (hs : o.Selects) : OutStepped outs o
    ⟨o.put s.space, vgaMaps a, vgaDacIoHandler a o.port o.len true (o.put s.space) v⟩ := by
  have hwithin : Within outs o := by
    unfold Out.Selects at hs
    unfold Within Out.Indexes Out.Writes Out.Colors
    refine ⟨fun hx => ?_, fun hx => ?_, fun hx => ?_⟩ <;> omega
  refine .inl ⟨hwithin, _, if_pos ⟨hs.1, rfl⟩, h.put, ?_⟩
  rw [selected_concat, if_pos hs, ← o.put_port s.space, hs.1]
  simp

/-- A byte is stored through the pointer. -/
theorem color_step (h : Follows outs s.space v) (hc : o.Colors) : OutStepped outs o
    ⟨o.put s.space, vgaMaps a, vgaDacIoHandler a o.port o.len true (o.put s.space) v⟩ := by
  have hnot : ¬ o.Selects ∧ ¬ o.Indexes ∧ ¬ o.Writes := by
    unfold Out.Colors at hc
    unfold Out.Selects Out.Indexes Out.Writes
    omega
  have hsel := selected_concat outs o
  rw [if_neg hnot.1, if_pos hc] at hsel
  have hwithin : Within outs o ↔ ∃ c ∈ selected outs, c.2 < 3 * (256 - c.1.toNat) :=
    ⟨fun hw => hw.2.2 hc, fun hn => ⟨fun hx => (hnot.2.1 hx).elim, fun hx => (hnot.2.2 hx).elim, fun _ => hn⟩⟩
  unfold OutStepped
  rw [hwithin, vgaDacIoHandler, if_neg (by rw [hc.1]; decide), if_pos ⟨hc.1, rfl⟩, h.ptr]
  cases hcol : selected outs with
  | none => exact .inr ⟨by simp, rfl⟩
  | some c =>
    obtain ⟨i, n⟩ := c
    rw [hcol, Option.map_some] at hsel
    have hi := i.isLt
    have hbound : 4 * i.toNat + 4 * (n / 3) + n % 3 < 4 * 256 ↔ n < 3 * (256 - i.toNat) := by omega
    have hnext := offset_succ i.toNat n
    simp only [Option.map_some, Option.mem_some_iff, exists_eq_left']
    by_cases hn : n < 3 * (256 - i.toNat)
    · refine .inl ⟨hn, ?_⟩
      rw [if_pos (hbound.mpr hn)]
      simp only [a.skips]
      by_cases hskip : (4 * i.toNat + 4 * (n / 3) + n % 3 + 1) % 4 = 3
      · rw [if_pos hskip] at hnext
        rw [if_pos hskip]
        exact ⟨_, rfl, h.put, by rw [hsel, Option.map_some, hnext]⟩
      · rw [if_neg hskip] at hnext
        rw [if_neg hskip]
        exact ⟨_, rfl, h.put, by rw [hsel, Option.map_some, hnext]⟩
    · rw [if_neg fun hb => hn (hbound.mp hb)]
      exact .inr ⟨hn, rfl⟩

/-- The ports after an access to the CRTC ports. -/
def crtcDone (a : PaletteAddrs) (o : Out) (s : PortIo (Option VgaRegs)) (v : VgaRegs) :
    PortIo (Option VgaRegs) :=
  match vgaCrtcIoHandler o.port o.len true (o.put s.space) v with
  | some (space, v) => ⟨space, vgaMaps a, some v⟩
  | none => ⟨o.put s.space, vgaMaps a, none⟩

/-- A register is looked up. -/
theorem index_step (h : Follows outs s.space v) (hi : o.Indexes) : OutStepped outs o (crtcDone a o s v) := by
  have hnot : ¬ o.Selects ∧ ¬ o.Colors ∧ ¬ o.Writes := by
    unfold Out.Indexes at hi
    unfold Out.Selects Out.Colors Out.Writes
    omega
  have hsel := selected_concat outs o
  rw [if_neg hnot.1, if_neg hnot.2.1] at hsel
  have hlow : o.put s.space 0x3D4 = byte o.data 0 := by rw [← o.put_port s.space, hi.1]
  have hwithin : Within outs o ↔ (byte o.data 0).toNat < 19 :=
    ⟨fun hall => hall.1 hi, fun hlt =>
      ⟨fun _ => hlt, fun hx => (hnot.2.2 hx).elim, fun hx => (hnot.2.1 hx).elim⟩⟩
  unfold OutStepped
  rw [hwithin, crtcDone, vgaCrtcIoHandler, hlow, if_pos ⟨hi.1, rfl⟩]
  by_cases hlt : (byte o.data 0).toNat < 19
  · rw [if_pos hlt]
    refine .inl ⟨hlt, _, rfl, ?_, ?_⟩
    · dsimp only
      rw [Function.update_of_ne (by decide), h.put]
    · rw [hsel]
      exact h.ptr
  · rw [if_neg hlt]
    exact .inr ⟨hlt, rfl⟩

/-- A register is written. -/
theorem write_step (h : Follows outs s.space v) (hw : o.Writes) : OutStepped outs o (crtcDone a o s v) := by
  have hnot : ¬ o.Selects ∧ ¬ o.Colors ∧ ¬ o.Indexes := by
    unfold Out.Writes at hw
    unfold Out.Selects Out.Colors Out.Indexes
    omega
  have hsel := selected_concat outs o
  rw [if_neg hnot.1, if_neg hnot.2.1] at hsel
  have hsame : o.put s.space 0x3D4 = crtcIndex outs := by
    rw [Out.put, Out.leaves, if_neg (by rw [hw.1]; omega), h.index]
  have hwithin : Within outs o ↔ (crtcIndex outs).toNat < 19 :=
    ⟨fun hall => hall.2.1 hw, fun hlt =>
      ⟨fun hx => (hnot.2.2 hx).elim, fun _ => hlt, fun hx => (hnot.2.1 hx).elim⟩⟩
  unfold OutStepped
  rw [hwithin, crtcDone, vgaCrtcIoHandler, hsame, if_neg (by rw [hw.1]; decide), if_pos ⟨hw.1, rfl⟩]
  by_cases hlt : (crtcIndex outs).toNat < 19
  · rw [if_pos hlt]
    refine .inl ⟨hlt, _, rfl, h.put, ?_⟩
    rw [hsel]
    exact h.ptr
  · rw [if_neg hlt]
    exact .inr ⟨hlt, rfl⟩

/-- The handlers are not called. -/
theorem other_step (h : Follows outs s.space v) (hd : ¬ (o.Selects ∨ o.Colors))
    (hc : ¬ (o.Indexes ∨ o.Writes)) : OutStepped outs o ⟨o.put s.space, vgaMaps a, some v⟩ := by
  rw [not_or] at hd hc
  refine .inl ⟨⟨fun hx => (hc.1 hx).elim, fun hx => (hc.2 hx).elim, fun hx => (hd.2 hx).elim⟩, _, rfl,
    h.put, ?_⟩
  rw [selected_concat, if_neg hd.1, if_neg hd.2]
  exact h.ptr

/-- **A step.** -/
theorem portWrite_step (hm : s.maps = vgaMaps a) (hdev : s.dev = some v) (h : Follows outs s.space v)
    (o : Out) : ∃ t, portWrite s o.port o.len o.data = .ok t ∧ t.maps = vgaMaps a ∧ OutStepped outs o t := by
  rw [portWrite_vga hm hdev o]
  by_cases hd : o.Selects ∨ o.Colors
  · rw [if_pos hd]
    refine ⟨_, rfl, rfl, ?_⟩
    rcases hd with hs | hc
    · exact select_step h hs
    · exact color_step h hc
  · rw [if_neg hd]
    by_cases hcrtc : o.Indexes ∨ o.Writes
    · rw [if_pos hcrtc]
      refine ⟨crtcDone a o s v, ?_, ?_, ?_⟩
      · unfold crtcDone
        cases vgaCrtcIoHandler o.port o.len true (o.put s.space) v <;> rfl
      · unfold crtcDone
        cases vgaCrtcIoHandler o.port o.len true (o.put s.space) v <;> rfl
      · rcases hcrtc with hi | hw
        · exact index_step h hi
        · exact write_step h hw
    · rw [if_neg hcrtc]
      exact ⟨_, rfl, rfl, other_step h hd hcrtc⟩

end Steps

/-! ### Runs -/

section Runs

variable {a : PaletteAddrs} {s : PortIo (Option VgaRegs)} {outs : List Out} {o : Out}

theorem runOuts_concat : ∀ (outs : List Out) (o : Out) (s : PortIo (Option VgaRegs)),
    runOuts (outs ++ [o]) s = (do
      let s ← runOuts outs s
      portWrite s o.port o.len o.data)
  | [], o, s => by
    simp only [List.nil_append, runOuts]
    change (portWrite s o.port o.len o.data >>= Except.ok) = portWrite s o.port o.len o.data
    cases portWrite s o.port o.len o.data <;> rfl
  | p :: outs, o, s => by
    simp only [List.cons_append, runOuts]
    cases portWrite s p.port p.len p.data with
    | error e => rfl
    | ok t => exact runOuts_concat outs o t

/-- A lost device stays lost. -/
theorem portWrite_lost (hm : s.maps = vgaMaps a) (hdev : s.dev = none) (o : Out) :
    ∃ t, portWrite s o.port o.len o.data = .ok t ∧ t.maps = vgaMaps a ∧ t.dev = none := by
  rw [portWrite, if_pos o.ok, pioCallback]
  simp only [hm, vgaMaps, List.find?_cons, List.find?_nil, hdev]
  by_cases h₁ : 0x3C8 ≤ o.port ∧ o.port + o.len - 1 ≤ 0x3C9
  · simp only [h₁, and_self, decide_true]
    exact ⟨_, rfl, rfl, rfl⟩
  · by_cases h₂ : 0x3D4 ≤ o.port ∧ o.port + o.len - 1 ≤ 0x3D5
    · simp only [h₁, h₂, and_self, decide_false, decide_true]
      exact ⟨_, rfl, rfl, rfl⟩
    · simp only [h₁, h₂, decide_false]
      exact ⟨_, rfl, rfl, rfl⟩

/-- Every OUT of the run is within bounds. -/
def AllWithin (outs : List Out) : Prop := ∀ pre o, pre ++ [o] <+: outs → Within pre o

theorem allWithin_concat : AllWithin (outs ++ [o]) ↔ AllWithin outs ∧ Within outs o := by
  constructor
  · intro h
    exact ⟨fun pre p hpre => h pre p (hpre.trans (List.prefix_append outs [o])), h outs o (List.prefix_refl _)⟩
  · rintro ⟨hall, ho⟩ pre p hpre
    rcases List.prefix_concat_iff.mp hpre with heq | hpre
    · obtain ⟨rfl, hp⟩ := List.append_inj' heq rfl
      obtain rfl := List.singleton_inj.mp hp
      exact ho
    · exact hall pre p hpre

/-- **A run** keeps the registers as the OUTs say, or has lost the device. -/
theorem runOuts_cases (a : PaletteAddrs) (palette : ℕ → Byte) (outs : List Out) :
    ∃ s, runOuts outs (vgaPorts a palette) = .ok s ∧ s.maps = vgaMaps a ∧
      ((AllWithin outs ∧ ∃ v, s.dev = some v ∧ Follows outs s.space v) ∨
        (¬ AllWithin outs ∧ s.dev = none)) := by
  induction outs using List.reverseRecOn with
  | nil =>
    refine ⟨_, rfl, rfl, .inl ⟨fun pre o hpre => ?_, _, rfl, rfl, rfl⟩⟩
    simp at hpre
  | append_singleton outs o ih =>
    obtain ⟨s, hrun, hm, hs⟩ := ih
    rw [runOuts_concat, hrun, allWithin_concat]
    change ∃ t, portWrite s o.port o.len o.data = .ok t ∧ _
    rcases hs with ⟨hall, v, hdev, hv⟩ | ⟨hbad, hdev⟩
    · obtain ⟨t, ht, htm, hstep⟩ := portWrite_step hm hdev hv o
      refine ⟨t, ht, htm, ?_⟩
      rcases hstep with ⟨hw, hfollows⟩ | ⟨hw, hlost⟩
      · exact .inl ⟨⟨hall, hw⟩, hfollows⟩
      · exact .inr ⟨fun h => hw h.2, hlost⟩
    · obtain ⟨t, ht, htm, hlost⟩ := portWrite_lost hm hdev o
      exact ⟨t, ht, htm, .inr ⟨fun h => hbad h.1, hlost⟩⟩

/-- **The VGA ports.** No access is outside the tables if and only if each OUT is
within bounds after those before it. -/
theorem vgaPorts_within_iff (a : PaletteAddrs) (palette : ℕ → Byte) (outs : List Out) :
    (∃ s v, runOuts outs (vgaPorts a palette) = .ok s ∧ s.dev = some v) ↔
      ∀ pre o, pre ++ [o] <+: outs → Within pre o := by
  obtain ⟨s, hrun, -, hs⟩ := runOuts_cases a palette outs
  constructor
  · rintro ⟨t, v, ht, hv⟩
    rw [hrun] at ht
    obtain rfl := Except.ok.inj ht
    rcases hs with ⟨hall, -⟩ | ⟨-, hlost⟩
    · exact hall
    · rw [hv] at hlost
      exact nomatch hlost
  · intro hall
    rcases hs with ⟨-, v, hdev, -⟩ | ⟨hbad, -⟩
    · exact ⟨s, v, hrun, hdev⟩
    · exact (hbad hall).elim

/-- An OUT of one byte to a port of the adapter. -/
def outByte (port : Fin 0x400) (data : Word) : Out := ⟨port, 1, data, .inl rfl, by omega⟩

/-- An access of one of these OUTs is outside the tables, with a palette of zeros. -/
def Strays (outs : List Out) : Prop :=
  ¬ ∃ s v, runOuts outs (vgaPorts ⟨0, 0, rfl, rfl⟩ fun _ => 0) = .ok s ∧ s.dev = some v

theorem strays_of_run {outs : List Out} (h : (runOuts outs (vgaPorts ⟨0, 0, rfl, rfl⟩ fun _ => 0)).toOption.map
    (fun s => s.dev.isSome) = some false) : Strays outs := by
  rintro ⟨s, v, hrun, hdev⟩
  rw [hrun] at h
  simp [Except.toOption, hdev] at h

/-- Register 19 is looked up, a byte is stored before a color was selected, or
after the three bytes of color 255. -/
theorem vgaPorts_strays : Strays [outByte 0x3D4 19] ∧ Strays [outByte 0x3C9 0] ∧
    Strays [outByte 0x3C8 255, outByte 0x3C9 0, outByte 0x3C9 0, outByte 0x3C9 0, outByte 0x3C9 0] :=
  ⟨strays_of_run (by decide +kernel), strays_of_run (by decide +kernel), strays_of_run (by decide +kernel)⟩

end Runs

end Nemu
