/-
# The interrupt controller

The two chips of `i8259.c`, with the slave on line 2 of the master. Devices
raise lines and the processor acknowledges the line it was told of. The lines
pending are those whose request bit is set. Acknowledging a line of the slave
also clears the request of line 2, so another line of the slave that is pending
is not reported any more: the controller is right in every state of a run if
and only if no line of the slave is acknowledged while another one is pending.

`ISR` is never used and is left out.

Key definitions: `Pic`, `raiseIntr`, `queryIntr`, `ackIntr`, `IsHighest`,
`Right`, `PicRun`.
Key theorems: `step_consistent`, `picRun_right_iff`.
-/
import Nemu.Lib.Bytes
import Mathlib.Data.Fintype.Basic
import Mathlib.Data.Finset.Max

namespace Nemu

open Bytes

namespace I8259

/-! ### The chips -/

/-- `i8259`. -/
structure Chip where
  IRR : Byte
  IMR : Byte
  highestIrq : ℤ

/-- The two chips, `intr_NO` and `cpu.INTR`. -/
structure Pic where
  master : Chip
  slave : Chip
  intrNO : Byte
  INTR : Bool

/-- Everything is zero at first. -/
def init : Pic := ⟨⟨0, 0, 0⟩, ⟨0, 0, 0⟩, 0, false⟩

/-- `IRQ_BASE`. -/
def irqBase : ℤ := 32

/-- `NO_INTR`. -/
def noIntr : ℤ := -1

/-- `MASK`. -/
def mask (n : ℕ) : Byte := 1#8 <<< n

/-- `ffo_table`: find first '1'. -/
def ffoTable : List ℤ :=
  [-1, 0, 1, 0, 2, 0, 1, 0, 3, 0, 1, 0, 2, 0, 1, 0,
   4, 0, 1, 0, 2, 0, 1, 0, 3, 0, 1, 0, 2, 0, 1, 0,
   5, 0, 1, 0, 2, 0, 1, 0, 3, 0, 1, 0, 2, 0, 1, 0,
   4, 0, 1, 0, 2, 0, 1, 0, 3, 0, 1, 0, 2, 0, 1, 0,
   6, 0, 1, 0, 2, 0, 1, 0, 3, 0, 1, 0, 2, 0, 1, 0,
   4, 0, 1, 0, 2, 0, 1, 0, 3, 0, 1, 0, 2, 0, 1, 0,
   5, 0, 1, 0, 2, 0, 1, 0, 3, 0, 1, 0, 2, 0, 1, 0,
   4, 0, 1, 0, 2, 0, 1, 0, 3, 0, 1, 0, 2, 0, 1, 0,
   7, 0, 1, 0, 2, 0, 1, 0, 3, 0, 1, 0, 2, 0, 1, 0,
   4, 0, 1, 0, 2, 0, 1, 0, 3, 0, 1, 0, 2, 0, 1, 0,
   5, 0, 1, 0, 2, 0, 1, 0, 3, 0, 1, 0, 2, 0, 1, 0,
   4, 0, 1, 0, 2, 0, 1, 0, 3, 0, 1, 0, 2, 0, 1, 0,
   6, 0, 1, 0, 2, 0, 1, 0, 3, 0, 1, 0, 2, 0, 1, 0,
   4, 0, 1, 0, 2, 0, 1, 0, 3, 0, 1, 0, 2, 0, 1, 0,
   5, 0, 1, 0, 2, 0, 1, 0, 3, 0, 1, 0, 2, 0, 1, 0,
   4, 0, 1, 0, 2, 0, 1, 0, 3, 0, 1, 0, 2, 0, 1, 0]

def ffo (b : Byte) : ℤ := ffoTable.getD b.toNat 0

/-- `highest_irq = ffo_table[IRR & ~IMR]`. -/
def Chip.scan (c : Chip) : Chip := { c with highestIrq := ffo (c.IRR &&& ~~~c.IMR) }

def Chip.request (c : Chip) (n : ℕ) : Chip := { c with IRR := c.IRR ||| mask n }

def Chip.withdraw (c : Chip) (n : ℕ) : Chip := { c with IRR := c.IRR &&& ~~~mask n }

/-- `do_i8259`; the assertion may fail. -/
def doI8259 (p : Pic) : Option Pic :=
  if p.master.highestIrq = noIntr then some { p with INTR := false }
  else if p.master.highestIrq = 2 then
    if p.slave.highestIrq = noIntr then none
    else some { p with
      intrNO := BitVec.ofInt 8 (8 + p.slave.highestIrq + irqBase)
      INTR := true }
  else some { p with
    intrNO := BitVec.ofInt 8 (p.master.highestIrq + irqBase)
    INTR := true }

/-- `i8259_raise_intr`. -/
def raiseIntr (n : ℕ) (p : Pic) : Option Pic :=
  if n < 16 then
    if n < 8 then doI8259 { p with master := (p.master.request n).scan }
    else doI8259 { p with
      master := (p.master.request 2).scan
      slave := (p.slave.request (n - 8)).scan }
  else none

/-- `i8259_query_intr`. -/
def queryIntr (p : Pic) : Byte := p.intrNO

/-- `i8259_ack_intr`. An `intr_NO` below 32 would be a negative line. -/
def ackIntr (p : Pic) : Option Pic :=
  if (p.intrNO.toNat : ℤ) = noIntr then some p
  else
    let n := (p.intrNO.toNat : ℤ) - irqBase
    if n < 8 then doI8259 { p with master := (p.master.withdraw n.toNat).scan }
    else doI8259 { p with
      master := (p.master.withdraw 2).scan
      slave := (p.slave.withdraw (n.toNat - 8)).scan }

/-! ### Find first one -/

/-- The table has the lowest bit that is set. -/
theorem ffo_spec (b : Byte) : if b = 0 then ffo b = -1 else
    ∃ k < 8, ffo b = (k : ℕ) ∧ b.getLsbD k = true ∧ ∀ j < k, b.getLsbD j = false := by
  revert b
  decide +kernel

theorem ffo_zero : ffo 0 = -1 := rfl

theorem ffo_of_ne {b : Byte} (h : b ≠ 0) :
    ∃ k < 8, ffo b = (k : ℕ) ∧ b.getLsbD k = true ∧ ∀ j < k, b.getLsbD j = false := by
  have := ffo_spec b
  rwa [if_neg h] at this

theorem ne_zero_of_bit {b : Byte} {k : ℕ} (h : b.getLsbD k = true) : b ≠ 0 := by
  rintro rfl
  simp at h

theorem getLsbD_mask (n : ℕ) {k : ℕ} (hk : k < 8) : (mask n).getLsbD k = decide (k = n) := by
  rw [mask, ← BitVec.twoPow_eq, BitVec.getLsbD_twoPow]
  by_cases h : k = n
  · simp [h, h ▸ hk]
  · simp [h, Ne.symm h]

theorem getLsbD_request (c : Chip) (n : ℕ) {k : ℕ} (hk : k < 8) :
    (c.request n).IRR.getLsbD k = (c.IRR.getLsbD k || decide (k = n)) := by
  rw [Chip.request, BitVec.getLsbD_or, getLsbD_mask n hk]

theorem getLsbD_withdraw (c : Chip) (n : ℕ) {k : ℕ} (hk : k < 8) :
    (c.withdraw n).IRR.getLsbD k = (c.IRR.getLsbD k && decide (k ≠ n)) := by
  rw [Chip.withdraw, BitVec.getLsbD_and, BitVec.getLsbD_not, getLsbD_mask n hk, decide_eq_true hk,
    Bool.true_and, decide_not]

/-! ### What the controller is for -/

/-- A line; 2 is the cascade and is none. -/
abbrev Line := Fin 16

/-- The priorities, highest first: 0, 1, 8, …, 15, 3, …, 7. -/
def prio (n : Line) : ℕ := if n.val < 3 then n.val else if 8 ≤ n.val then n.val - 6 else n.val + 7

/-- The pending line that goes first. -/
def IsHighest (S : Finset Line) (n : Line) : Prop := n ∈ S ∧ ∀ m ∈ S, prio n ≤ prio m

/-- The line of a vector. -/
def lineOf (v : Byte) : Line := Fin.ofNat 16 (v.toNat - 32)

/-- The request bit of a line. -/
def Pic.lineBit (p : Pic) (n : Line) : Bool :=
  if n.val < 8 then p.master.IRR.getLsbD n.val else p.slave.IRR.getLsbD (n.val - 8)

/-- The controller and its users: a device raises a line, the processor
acknowledges. -/
inductive Act where
  | raise (n : Line)
  | ack

def step (a : Act) (p : Pic) : Option Pic :=
  match a with
  | .raise n => raiseIntr n.val p
  | .ack => ackIntr p

/-- No device is on line 2, and the processor acknowledges when `INTR` is set. -/
def Legal (a : Act) (p : Pic) : Prop :=
  match a with
  | .raise n => n ≠ 2
  | .ack => p.INTR = true

/-- The lines raised since they were last acknowledged. -/
def pendingAfter (a : Act) (p : Pic) (S : Finset Line) : Finset Line :=
  match a with
  | .raise n => insert n S
  | .ack => S.erase (lineOf (queryIntr p))

/-- The controller agrees with the lines that are pending. -/
structure Right (S : Finset Line) (p : Pic) : Prop where
  pending : ∀ n, n ∈ S ↔ n ≠ 2 ∧ p.lineBit n = true
  intr : p.INTR = true ↔ S.Nonempty
  query : ∀ n, IsHighest S n → (queryIntr p).toNat = 32 + n.val

/-- The acknowledgement of a line of the slave while another one is pending. -/
def Drops (a : Act) (S : Finset Line) : Prop :=
  a = .ack ∧ ∃ n m, IsHighest S n ∧ m ∈ S ∧ m ≠ n ∧ 8 ≤ n.val ∧ 8 ≤ m.val

/-- A run from the start: the steps so far, each with the state before it, the
state, and the lines raised since they were last acknowledged. -/
inductive PicRun : List (Finset Line × Pic × Act) → Finset Line → Pic → Prop where
  | init : PicRun [] ∅ init
  | step {log : List (Finset Line × Pic × Act)} {S : Finset Line} {p p' : Pic} {a : Act}
      (h : PicRun log S p) (hlegal : Legal a p) (hstep : step a p = some p') :
      PicRun (log ++ [(S, p, a)]) (pendingAfter a p S) p'

/-! ### The invariant -/

/-- The line that the chips report. -/
def Reported (p : Pic) (n : Line) : Prop :=
  n ≠ 2 ∧ p.lineBit n = true ∧
    if n.val < 8 then ∀ j < n.val, p.master.IRR.getLsbD j = false
    else p.master.IRR.getLsbD 2 = true ∧ (∀ j < 2, p.master.IRR.getLsbD j = false) ∧
      ∀ j < n.val - 8, p.slave.IRR.getLsbD j = false

/-- Line 0 goes first. -/
theorem Reported.eq_zero {p : Pic} {n : Line} (h : Reported p n) (h0 : p.lineBit 0 = true) : n = 0 := by
  obtain ⟨-, -, h⟩ := h
  have hbit : p.master.IRR.getLsbD 0 = true := h0
  split_ifs at h with h8
  · by_contra hn
    have hfalse := h 0 (Nat.pos_of_ne_zero fun hv => hn (Fin.ext hv))
    exact Bool.false_ne_true (hfalse.symm.trans hbit)
  · exact absurd ((h.2.1 0 (by decide)).symm.trans hbit) Bool.false_ne_true

/-- The fields fit each other, and the request bits are the pending lines. -/
structure Consistent (S : Finset Line) (p : Pic) : Prop where
  master_imr : p.master.IMR = 0
  slave_imr : p.slave.IMR = 0
  pending : ∀ n, n ∈ S ↔ n ≠ 2 ∧ p.lineBit n = true
  cascade : p.master.IRR.getLsbD 2 = true → p.slave.IRR ≠ 0
  slave : p.slave.IRR ≠ 0 → p.slave.highestIrq = ffo p.slave.IRR
  intr : p.INTR = true ↔ p.master.IRR ≠ 0
  vector : p.INTR = true → ∃ n, Reported p n ∧ p.intrNO = BitVec.ofNat 8 (32 + n.val)

theorem init_consistent : Consistent ∅ init where
  master_imr := rfl
  slave_imr := rfl
  pending n := by simp [Pic.lineBit, init]
  cascade h := by simp [init] at h
  slave h := absurd rfl h
  intr := by simp [init]
  vector h := by simp [init] at h

/-- With the master's cache up to date, the line to report is found. -/
theorem doI8259_ok {p : Pic} (hmaster : p.master.highestIrq = ffo p.master.IRR)
    (hcascade : p.master.IRR.getLsbD 2 = true → p.slave.IRR ≠ 0)
    (hslave : p.slave.IRR ≠ 0 → p.slave.highestIrq = ffo p.slave.IRR) :
    ∃ p', doI8259 p = some p' ∧ p'.master = p.master ∧ p'.slave = p.slave ∧
      (p'.INTR = true ↔ p.master.IRR ≠ 0) ∧
      (p'.INTR = true → ∃ n, Reported p n ∧ p'.intrNO = BitVec.ofNat 8 (32 + n.val)) := by
  unfold doI8259
  by_cases hzero : p.master.IRR = 0
  · rw [if_pos (by rw [hmaster, hzero, ffo_zero, noIntr])]
    exact ⟨_, rfl, rfl, rfl, ⟨fun h => absurd h Bool.false_ne_true, fun h => absurd hzero h⟩, fun h => nomatch h⟩
  obtain ⟨k, hk, hffo, hbit, hlow⟩ := ffo_of_ne hzero
  rw [if_neg (by rw [hmaster, hffo, noIntr]; omega)]
  by_cases h2 : k = 2
  · subst h2
    obtain ⟨j, hj, hffo', hbit', hlow'⟩ := ffo_of_ne (hcascade hbit)
    have hhigh := hslave (hcascade hbit)
    rw [if_pos (by rw [hmaster, hffo]; rfl), if_neg (by rw [hhigh, hffo', noIntr]; omega)]
    refine ⟨_, rfl, rfl, rfl, ⟨fun _ => hzero, fun _ => rfl⟩, fun _ => ⟨⟨8 + j, by omega⟩, ⟨?_, ?_, ?_⟩, ?_⟩⟩
    · intro h
      have := congrArg Fin.val h
      simp only [Fin.val_two] at this
      omega
    · rw [Pic.lineBit, if_neg (by simp), Nat.add_sub_cancel_left]
      exact hbit'
    · rw [if_neg (by simp), Nat.add_sub_cancel_left]
      exact ⟨hbit, hlow, hlow'⟩
    · change BitVec.ofInt 8 (8 + p.slave.highestIrq + irqBase) = BitVec.ofNat 8 (32 + (8 + j))
      rw [hhigh, hffo', irqBase, ← BitVec.ofInt_natCast]
      congr 1
      push_cast
      omega
  · rw [if_neg (by rw [hmaster, hffo]; omega)]
    refine ⟨_, rfl, rfl, rfl, ⟨fun _ => hzero, fun _ => rfl⟩, fun _ => ⟨⟨k, by omega⟩, ⟨?_, ?_, ?_⟩, ?_⟩⟩
    · intro h
      exact h2 (congrArg Fin.val h)
    · rw [Pic.lineBit, if_pos hk]
      exact hbit
    · rw [if_pos hk]
      exact hlow
    · change BitVec.ofInt 8 (p.master.highestIrq + irqBase) = BitVec.ofNat 8 (32 + k)
      rw [hmaster, hffo, irqBase, ← BitVec.ofInt_natCast]
      congr 1
      push_cast
      omega

/-- The master, the slave and the pending lines after a change of the request
bits; `do_i8259` brings the rest up to date. -/
theorem consistent_of_doI8259 {S : Finset Line} {p : Pic}
    (hpending : ∀ n, n ∈ S ↔ n ≠ 2 ∧ p.lineBit n = true) (hmimr : p.master.IMR = 0)
    (hsimr : p.slave.IMR = 0)
    (hcascade : p.master.IRR.getLsbD 2 = true → p.slave.IRR ≠ 0)
    (hmaster : p.master.highestIrq = ffo p.master.IRR)
    (hslave : p.slave.IRR ≠ 0 → p.slave.highestIrq = ffo p.slave.IRR) :
    ∃ p', doI8259 p = some p' ∧ p'.master = p.master ∧ p'.slave = p.slave ∧ Consistent S p' := by
  obtain ⟨p', hrun, hm, hs, hintr, hvector⟩ := doI8259_ok hmaster hcascade hslave
  have hbit : ∀ n, p'.lineBit n = p.lineBit n := fun n => by rw [Pic.lineBit, hm, hs]; rfl
  refine ⟨p', hrun, hm, hs, ?_⟩
  constructor
  · rw [hm, hmimr]
  · rw [hs, hsimr]
  · intro n
    rw [hbit, hpending]
  · rw [hm, hs]
    exact hcascade
  · rw [hs]
    exact hslave
  · rw [hm]
    exact hintr
  · intro h
    obtain ⟨n, hn, hno⟩ := hvector h
    refine ⟨n, ?_, hno⟩
    unfold Reported
    rw [hbit, hm, hs]
    exact hn

theorem scan_highestIrq {c : Chip} (h : c.IMR = 0) : c.scan.highestIrq = ffo c.scan.IRR := by
  change ffo (c.IRR &&& ~~~c.IMR) = ffo c.IRR
  rw [h, show ~~~(0 : Byte) = BitVec.allOnes 8 from rfl, BitVec.and_allOnes]

/-! ### The request bits of a line -/

/-- The request bits are changed for one line: on its chip, and for a line of the
slave on line 2 of the master, too. -/
def Pic.change (p : Pic) (f : Chip → ℕ → Chip) (n : Line) : Pic :=
  if n.val < 8 then { p with master := (f p.master n.val).scan }
  else { p with master := (f p.master 2).scan, slave := (f p.slave (n.val - 8)).scan }

section Change

variable {S T : Finset Line} {p p' : Pic} {f : Chip → ℕ → Chip} {g : Bool → Bool → Bool} {n m : Line}

/-- Only the bit of that line is another one. -/
theorem lineBit_change (hf : ∀ c i k, k < 8 → (f c i).IRR.getLsbD k = g (c.IRR.getLsbD k) (decide (k = i)))
    (hg : ∀ b, g b false = b) (hm : m ≠ 2) :
    (p.change f n).lineBit m = g (p.lineBit m) (decide (m = n)) := by
  have hm2 : m.val ≠ 2 := fun h => hm (Fin.ext h)
  unfold Pic.change Pic.lineBit
  by_cases hm8 : m.val < 8
  · rw [if_pos hm8, if_pos hm8]
    by_cases h8 : n.val < 8
    · rw [if_pos h8]
      refine (hf p.master n.val m.val hm8).trans ?_
      rw [decide_eq_decide.mpr (Fin.ext_iff (a := m) (b := n)).symm]
    · rw [if_neg h8]
      have hne : m ≠ n := fun h => h8 (h ▸ hm8)
      refine (hf p.master 2 m.val hm8).trans ?_
      rw [decide_eq_false hm2, decide_eq_false hne]
  · rw [if_neg hm8, if_neg hm8]
    by_cases h8 : n.val < 8
    · have hne : m ≠ n := fun h => hm8 (h ▸ h8)
      rw [if_pos h8, decide_eq_false hne, hg]
    · rw [if_neg h8]
      refine (hf p.slave (n.val - 8) (m.val - 8) (by omega)).trans ?_
      have heq : m.val - 8 = n.val - 8 ↔ m = n := by rw [Fin.ext_iff]; omega
      rw [decide_eq_decide.mpr heq]

/-- The cascade changes with the lines of the slave. -/
theorem cascade_change (hf : ∀ c i k, k < 8 → (f c i).IRR.getLsbD k = g (c.IRR.getLsbD k) (decide (k = i)))
    (hn : n ≠ 2) : (p.change f n).master.IRR.getLsbD 2 = g (p.master.IRR.getLsbD 2) (decide (8 ≤ n.val)) := by
  have hn2 : 2 ≠ n.val := fun h => hn (Fin.ext h.symm)
  unfold Pic.change
  by_cases h8 : n.val < 8
  · rw [if_pos h8, decide_eq_false (Nat.not_le.mpr h8), ← decide_eq_false hn2]
    exact hf p.master n.val 2 (by norm_num)
  · rw [if_neg h8, decide_eq_true (Nat.le_of_not_lt h8)]
    exact hf p.master 2 2 (by norm_num)

/-- `do_i8259` brings the rest up to date after a change. -/
theorem Consistent.change (h : Consistent S p) (himr : ∀ c i, (f c i).IMR = c.IMR)
    (hpending : ∀ m, m ∈ T ↔ m ≠ 2 ∧ (p.change f n).lineBit m = true)
    (hcascade : (p.change f n).master.IRR.getLsbD 2 = true → (p.change f n).slave.IRR ≠ 0) :
    ∃ p', doI8259 (p.change f n) = some p' ∧ p'.master = (p.change f n).master ∧
      p'.slave = (p.change f n).slave ∧ Consistent T p' := by
  have hmaster : ∀ i, (f p.master i).IMR = 0 := fun i => (himr _ i).trans h.master_imr
  have hslave : ∀ i, (f p.slave i).IMR = 0 := fun i => (himr _ i).trans h.slave_imr
  by_cases h8 : n.val < 8
  · have hchange : p.change f n = { p with master := (f p.master n.val).scan } := if_pos h8
    rw [hchange] at hpending hcascade ⊢
    exact consistent_of_doI8259 hpending (hmaster _) h.slave_imr hcascade (scan_highestIrq (hmaster _)) h.slave
  · have hchange : p.change f n =
        { p with master := (f p.master 2).scan, slave := (f p.slave (n.val - 8)).scan } := if_neg h8
    rw [hchange] at hpending hcascade ⊢
    exact consistent_of_doI8259 hpending (hmaster _) (hslave _) hcascade (scan_highestIrq (hmaster _))
      fun _ => scan_highestIrq (hslave _)

/-- A line joins the pending ones. -/
theorem Consistent.pending_insert (h : Consistent S p) (hn : n ≠ 2)
    (hbit : ∀ m ≠ 2, p'.lineBit m = (p.lineBit m || decide (m = n))) (m : Line) :
    m ∈ insert n S ↔ m ≠ 2 ∧ p'.lineBit m = true := by
  rw [Finset.mem_insert, h.pending]
  constructor
  · rintro (rfl | ⟨hm, hb⟩)
    · exact ⟨hn, by rw [hbit m hn, decide_eq_true rfl, Bool.or_true]⟩
    · exact ⟨hm, by rw [hbit m hm, hb, Bool.true_or]⟩
  · rintro ⟨hm, hb⟩
    rw [hbit m hm, Bool.or_eq_true, decide_eq_true_iff] at hb
    exact hb.symm.imp_right fun hb => ⟨hm, hb⟩

/-- A line leaves them. -/
theorem Consistent.pending_erase (h : Consistent S p)
    (hbit : ∀ m ≠ 2, p'.lineBit m = (p.lineBit m && !decide (m = n))) (m : Line) :
    m ∈ S.erase n ↔ m ≠ 2 ∧ p'.lineBit m = true := by
  rw [Finset.mem_erase, h.pending]
  constructor
  · rintro ⟨hne, hm, hb⟩
    exact ⟨hm, by rw [hbit m hm, hb, decide_eq_false hne]; rfl⟩
  · rintro ⟨hm, hb⟩
    rw [hbit m hm, Bool.and_eq_true, Bool.not_eq_true', decide_eq_false_iff_not] at hb
    exact ⟨hb.2, hm, hb.1⟩

end Change

/-! ### The steps -/

section Step

variable {S : Finset Line} {p : Pic}

theorem raiseIntr_eq (n : Line) : raiseIntr n.val p = doI8259 (p.change Chip.request n) := by
  unfold raiseIntr Pic.change
  rw [if_pos n.isLt]
  split_ifs <;> rfl

/-- **Raising a line** makes it pending. -/
theorem raiseIntr_ok (h : Consistent S p) {n : Line} (hn : n ≠ 2) :
    ∃ p', raiseIntr n.val p = some p' ∧ Consistent (insert n S) p' ∧
      (p'.master.IRR.getLsbD 2 = true ↔ p.master.IRR.getLsbD 2 = true ∨ 8 ≤ n.val) := by
  have hrequest : ∀ (c : Chip) (i k : ℕ), k < 8 →
      (c.request i).IRR.getLsbD k = (c.IRR.getLsbD k || decide (k = i)) := fun c i _ hk => getLsbD_request c i hk
  have hbit2 := cascade_change (p := p) hrequest hn
  have hcascade : (p.change Chip.request n).master.IRR.getLsbD 2 = true →
      (p.change Chip.request n).slave.IRR ≠ 0 := by
    intro hc
    rw [hbit2, Bool.or_eq_true, decide_eq_true_iff] at hc
    unfold Pic.change
    by_cases h8 : n.val < 8
    · rw [if_pos h8]
      exact h.cascade (hc.resolve_right (by omega))
    · rw [if_neg h8]
      refine ne_zero_of_bit (k := n.val - 8) ?_
      refine (getLsbD_request p.slave (n.val - 8) (by omega)).trans ?_
      rw [decide_eq_true rfl, Bool.or_true]
  obtain ⟨p', hrun, hm, -, hp'⟩ := h.change (f := Chip.request) (fun _ _ => rfl)
    (h.pending_insert hn fun m hm => lineBit_change hrequest Bool.or_false hm) hcascade
  refine ⟨p', (raiseIntr_eq n).trans hrun, hp', ?_⟩
  rw [hm, hbit2, Bool.or_eq_true, decide_eq_true_iff]

theorem lineOf_vector (n : Line) : lineOf (BitVec.ofNat 8 (32 + n.val)) = n := by
  revert n
  decide

/-- **Acknowledging** withdraws the line that was reported. -/
theorem ackIntr_ok (h : Consistent S p) (hintr : p.INTR = true) :
    ∃ n p', Reported p n ∧ queryIntr p = BitVec.ofNat 8 (32 + n.val) ∧ ackIntr p = some p' ∧
      Consistent (S.erase n) p' ∧
      p'.master.IRR = (p.master.withdraw (if n.val < 8 then n.val else 2)).IRR ∧
      ∀ m ≠ n, 8 ≤ m.val → p'.lineBit m = p.lineBit m := by
  obtain ⟨n, hn, hno⟩ := h.vector hintr
  have hack : ackIntr p = doI8259 (p.change Chip.withdraw n) := by
    have hint : (p.intrNO.toNat : ℤ) = 32 + n.val := by
      rw [hno, BitVec.toNat_ofNat, Nat.mod_eq_of_lt (by omega)]
      push_cast
      rfl
    have hline : ((p.intrNO.toNat : ℤ) - irqBase) = n.val := by rw [hint, irqBase]; omega
    unfold ackIntr Pic.change
    rw [if_neg (by rw [hint, noIntr]; omega)]
    simp only [hline, Int.toNat_natCast]
    by_cases h8 : n.val < 8
    · rw [if_pos (by omega), if_pos h8]
    · rw [if_neg (by omega), if_neg h8]
  have hwithdraw : ∀ (c : Chip) (i k : ℕ), k < 8 →
      (c.withdraw i).IRR.getLsbD k = (c.IRR.getLsbD k && !decide (k = i)) := fun c i _ hk => by
    rw [getLsbD_withdraw c i hk, decide_not]
  have hbit : ∀ m ≠ 2, (p.change Chip.withdraw n).lineBit m = (p.lineBit m && !decide (m = n)) :=
    fun m hm => lineBit_change (g := fun b e => b && !e) hwithdraw Bool.and_true hm
  have hcascade : (p.change Chip.withdraw n).master.IRR.getLsbD 2 = true →
      (p.change Chip.withdraw n).slave.IRR ≠ 0 := by
    intro hc
    rw [cascade_change (g := fun b e => b && !e) hwithdraw hn.1, Bool.and_eq_true, Bool.not_eq_true',
      decide_eq_false_iff_not] at hc
    unfold Pic.change
    rw [if_pos (by omega)]
    exact h.cascade hc.1
  obtain ⟨p', hrun, hm, hs, hp'⟩ := h.change (f := Chip.withdraw) (fun _ _ => rfl)
    (h.pending_erase hbit) hcascade
  refine ⟨n, p', hn, hno, hack.trans hrun, hp', ?_, fun m hmn hm8 => ?_⟩
  · rw [hm]
    unfold Pic.change
    by_cases h8 : n.val < 8
    · rw [if_pos h8, if_pos h8]
      rfl
    · rw [if_neg h8, if_neg h8]
      rfl
  · have hm2 : m ≠ 2 := by
      rintro rfl
      exact absurd hm8 (by decide)
    have hsame : p'.lineBit m = (p.change Chip.withdraw n).lineBit m := by rw [Pic.lineBit, hm, hs]; rfl
    rw [hsame, hbit m hm2, decide_eq_false hmn, Bool.not_false, Bool.and_true]

end Step

/-! ### Which line is first -/

/-- The slave is requested when one of its lines is pending. -/
def Cascaded (S : Finset Line) (p : Pic) : Prop :=
  (∃ m ∈ S, 8 ≤ m.val) → p.master.IRR.getLsbD 2 = true

section Highest

variable {S : Finset Line} {p : Pic} {n m : Line}

theorem prio_inj (hn : n ≠ 2) (hm : m ≠ 2) (h : prio n = prio m) : n = m := by
  have hinj : ∀ n m : Line, n ≠ 2 → m ≠ 2 → prio n = prio m → n = m := by decide
  exact hinj n m hn hm h

/-- There is one highest line at most. -/
theorem IsHighest.unique (hS : 2 ∉ S) (hn : IsHighest S n) (hm : IsHighest S m) : n = m := by
  have hn2 : n ≠ 2 := fun h => hS (h ▸ hn.1)
  have hm2 : m ≠ 2 := fun h => hS (h ▸ hm.1)
  exact prio_inj hn2 hm2 (le_antisymm (hn.2 m hm.1) (hm.2 n hn.1))

theorem Consistent.two_not_mem (h : Consistent S p) : 2 ∉ S := fun h2 => ((h.pending 2).mp h2).1 rfl

/-- The line reported goes before those that the request bits show. -/
theorem Reported.isHighest (h : Consistent S p) (hc : Cascaded S p) (hn : Reported p n) :
    IsHighest S n := by
  obtain ⟨hn2, hbit, hlow⟩ := hn
  have hn2' : n.val ≠ 2 := fun h => hn2 (Fin.ext h)
  refine ⟨(h.pending n).mpr ⟨hn2, hbit⟩, fun m hm => ?_⟩
  obtain ⟨hm2, hmbit⟩ := (h.pending m).mp hm
  have hm2' : m.val ≠ 2 := fun h => hm2 (Fin.ext h)
  unfold Pic.lineBit at hmbit
  -- a bit that is set is not below the reported one
  have hnot : ∀ {b : Byte} {j k : ℕ}, (∀ i < k, b.getLsbD i = false) → b.getLsbD j = true → k ≤ j := by
    intro b j k hfalse htrue
    by_contra hlt
    rw [hfalse j (by omega)] at htrue
    exact absurd htrue Bool.false_ne_true
  unfold prio
  by_cases hn8 : n.val < 8
  · rw [if_pos hn8] at hlow
    by_cases hm8 : m.val < 8
    · rw [if_pos hm8] at hmbit
      have := hnot hlow hmbit
      split_ifs <;> omega
    · have := hnot hlow (hc ⟨m, hm, by omega⟩)
      split_ifs <;> omega
  · rw [if_neg hn8] at hlow
    obtain ⟨-, hlow, hslow⟩ := hlow
    by_cases hm8 : m.val < 8
    · rw [if_pos hm8] at hmbit
      have := hnot hlow hmbit
      split_ifs <;> omega
    · rw [if_neg hm8] at hmbit
      have := hnot hslow hmbit
      split_ifs <;> omega

/-- A controller that asks for the slave when it has to is right. -/
theorem right_of_cascaded (h : Consistent S p) (hc : Cascaded S p) : Right S p := by
  have hintr : p.INTR = true ↔ S.Nonempty := by
    rw [h.intr]
    constructor
    · intro hne
      obtain ⟨n, hn, -⟩ := h.vector (h.intr.mpr hne)
      exact ⟨n, (hn.isHighest h hc).1⟩
    · rintro ⟨n, hn⟩
      obtain ⟨-, hbit⟩ := (h.pending n).mp hn
      unfold Pic.lineBit at hbit
      by_cases h8 : n.val < 8
      · rw [if_pos h8] at hbit
        exact ne_zero_of_bit hbit
      · exact ne_zero_of_bit (hc ⟨n, hn, by omega⟩)
  refine ⟨h.pending, hintr, fun n hn => ?_⟩
  obtain ⟨m, hm, hno⟩ := h.vector (hintr.mpr ⟨n, hn.1⟩)
  have heq : n = m := hn.unique h.two_not_mem (hm.isHighest h hc)
  rw [queryIntr, hno, heq, BitVec.toNat_ofNat, Nat.mod_eq_of_lt (by omega)]

end Highest

/-! ### Runs -/

section Runs

variable {S : Finset Line} {p p' : Pic} {a : Act}

/-- **One step.** No assertion fails, and the request bits are the pending lines. -/
theorem step_consistent (h : Consistent S p) (hlegal : Legal a p) :
    ∃ p', step a p = some p' ∧ Consistent (pendingAfter a p S) p' := by
  cases a with
  | raise n =>
    obtain ⟨p', hrun, hp', -⟩ := raiseIntr_ok h hlegal
    exact ⟨p', hrun, hp'⟩
  | ack =>
    obtain ⟨n, p', -, hno, hrun, hp', -⟩ := ackIntr_ok h hlegal
    refine ⟨p', hrun, ?_⟩
    rw [pendingAfter, hno, lineOf_vector]
    exact hp'

/-- The slave stays requested unless a line of it is dropped. -/
theorem step_cascaded (h : Consistent S p) (hc : Cascaded S p) (hlegal : Legal a p)
    (hstep : step a p = some p') (hkeep : ¬ Drops a S) : Cascaded (pendingAfter a p S) p' := by
  cases a with
  | raise n =>
    obtain ⟨q, hrun, -, hbit⟩ := raiseIntr_ok h hlegal
    obtain rfl : q = p' := Option.some.inj (hrun.symm.trans hstep)
    rintro ⟨m, hm, hm8⟩
    rw [hbit]
    rcases Finset.mem_insert.mp hm with rfl | hm
    · exact .inr hm8
    · exact .inl (hc ⟨m, hm, hm8⟩)
  | ack =>
    obtain ⟨n, q, hn, hno, hrun, -, hmaster, -⟩ := ackIntr_ok h hlegal
    obtain rfl : q = p' := Option.some.inj (hrun.symm.trans hstep)
    have hhigh := hn.isHighest h hc
    rintro ⟨m, hm, hm8⟩
    rw [pendingAfter, hno, lineOf_vector, Finset.mem_erase] at hm
    have hn8 : n.val < 8 := by
      by_contra hn8
      exact hkeep ⟨rfl, n, m, hhigh, hm.2, hm.1, by omega, hm8⟩
    have hn2 : 2 ≠ n.val := fun h => hn.1 (Fin.ext h.symm)
    rw [hmaster, if_pos hn8, getLsbD_withdraw _ _ (by omega), hc ⟨m, hm.2, hm8⟩, decide_eq_true hn2]
    rfl

/-- **A dropped line.** After it the controller is wrong: it reports no line, or
one that goes after the dropped one. -/
theorem step_drops (h : Consistent S p) (hc : Cascaded S p) (hlegal : Legal a p)
    (hstep : step a p = some p') (hdrop : Drops a S) : ¬ Right (pendingAfter a p S) p' := by
  obtain ⟨rfl, n, m, hn, hm, hmn, hn8, hm8⟩ := hdrop
  obtain ⟨k, q, hk, hno, hrun, hq, hmaster, -⟩ := ackIntr_ok h hlegal
  obtain rfl : q = p' := Option.some.inj (hrun.symm.trans hstep)
  obtain rfl : n = k := hn.unique h.two_not_mem (hk.isHighest h hc)
  obtain ⟨-, -, hlow⟩ := hk
  rw [if_neg (by omega)] at hlow hmaster
  rw [pendingAfter, hno, lineOf_vector]
  intro hright
  have hm' : m ∈ S.erase n := Finset.mem_erase.mpr ⟨hmn, hm⟩
  have hintr : q.INTR = true := hright.intr.mpr ⟨m, hm'⟩
  obtain ⟨j, ⟨hj2, hjbit, hjlow⟩, hjno⟩ := hq.vector hintr
  -- lines 0, 1 and the cascade are not requested
  have hbits : ∀ i < 3, q.master.IRR.getLsbD i = false := by
    intro i hi
    rw [hmaster, getLsbD_withdraw _ _ (by omega)]
    by_cases hi2 : i = 2
    · simp [hi2]
    · rw [hlow.2.1 i (by omega), Bool.false_and]
  have hj8 : j.val < 8 := by
    by_contra hj8
    rw [if_neg hj8] at hjlow
    rw [hbits 2 (by omega)] at hjlow
    exact absurd hjlow.1 Bool.false_ne_true
  have hj3 : 3 ≤ j.val := by
    by_contra hj3
    rw [Pic.lineBit, if_pos hj8, hbits _ (by omega)] at hjbit
    exact absurd hjbit Bool.false_ne_true
  -- the highest line left is one of the slave
  obtain ⟨i, hi, hmin⟩ := Finset.exists_min_image (S.erase n) prio ⟨m, hm'⟩
  have hquery := hright.query i ⟨hi, hmin⟩
  rw [queryIntr, hjno, BitVec.toNat_ofNat, Nat.mod_eq_of_lt (by omega)] at hquery
  have hprio := hmin m hm'
  unfold prio at hprio
  split_ifs at hprio <;> omega

/-- In a run the request bits are the pending lines. -/
theorem picRun_consistent {log : List (Finset Line × Pic × Act)} (h : PicRun log S p) :
    Consistent S p := by
  induction h with
  | init => exact init_consistent
  | step _ hlegal hstep ih =>
    obtain ⟨q, hrun, hq⟩ := step_consistent ih hlegal
    obtain rfl := Option.some.inj (hrun.symm.trans hstep)
    exact hq

/-- **Interrupt requests.** No assertion ever fails, and the controller is right
in every state of a run if and only if no line of the slave was acknowledged
while another one was pending. -/
theorem picRun_right_iff {log : List (Finset Line × Pic × Act)} (h : PicRun log S p) :
    (∀ a, Legal a p → ∃ p', step a p = some p') ∧
    (((∀ x ∈ log, Right x.1 x.2.1) ∧ Right S p) ↔ ∀ x ∈ log, ¬ Drops x.2.2 x.1) := by
  refine ⟨fun a ha => ?_, ?_⟩
  · obtain ⟨p', hrun, -⟩ := step_consistent (picRun_consistent h) ha
    exact ⟨p', hrun⟩
  -- without a drop the slave is requested when it has to be
  suffices hs : ((∀ x ∈ log, ¬ Drops x.2.2 x.1) → Cascaded S p) ∧
      (((∀ x ∈ log, Right x.1 x.2.1) ∧ Right S p) ↔ ∀ x ∈ log, ¬ Drops x.2.2 x.1) from hs.2
  induction h with
  | init =>
    refine ⟨fun _ hm => ?_, ?_⟩
    · obtain ⟨m, hm, -⟩ := hm
      exact absurd hm (Finset.notMem_empty m)
    · have hinit : Right ∅ init := right_of_cascaded init_consistent fun hm => by
        obtain ⟨m, hm, -⟩ := hm
        exact absurd hm (Finset.notMem_empty m)
      simp [hinit]
  | @step log S p p' a h hlegal hstep ih =>
    obtain ⟨hcasc, hiff⟩ := ih
    have hcons := picRun_consistent h
    have hcons' := picRun_consistent (.step h hlegal hstep)
    have hlast : ∀ {Q : Finset Line × Pic × Act → Prop},
        (∀ x ∈ log ++ [(S, p, a)], Q x) ↔ (∀ x ∈ log, Q x) ∧ Q (S, p, a) := by
      intro Q
      simp [or_imp, forall_and]
    have hcasc' : (∀ x ∈ log ++ [(S, p, a)], ¬ Drops x.2.2 x.1) → Cascaded (pendingAfter a p S) p' := by
      intro hkeep
      rw [hlast] at hkeep
      exact step_cascaded hcons (hcasc hkeep.1) hlegal hstep hkeep.2
    refine ⟨hcasc', ?_⟩
    constructor
    · rintro ⟨hall, hright⟩
      rw [hlast] at hall ⊢
      have hkeep := hiff.mp hall
      exact ⟨hkeep, fun hdrop => step_drops hcons (hcasc hkeep) hlegal hstep hdrop hright⟩
    · intro hkeep
      have hright := right_of_cascaded hcons' (hcasc' hkeep)
      rw [hlast] at hkeep ⊢
      exact ⟨hiff.mpr hkeep.1, hright⟩

end Runs

/-- The state after the steps. -/
def played (acts : List Act) : Pic := acts.foldl (fun p a => (step a p).getD p) init

theorem picRun_played {log : List (Finset Line × Pic × Act)} {S : Finset Line} {acts : List Act} (h : PicRun log S (played acts))
    (a : Act) (hlegal : Legal a (played acts)) (hstep : (step a (played acts)).isSome) :
    PicRun (log ++ [(S, played acts, a)]) (pendingAfter a (played acts) S) (played (acts ++ [a])) := by
  obtain ⟨q, hq⟩ := Option.isSome_iff_exists.mp hstep
  have hlast : played (acts ++ [a]) = q := by
    rw [played, List.foldl_append, ← played, List.foldl_cons, List.foldl_nil, hq, Option.getD_some]
  exact hlast ▸ h.step hlegal hq

/-- A line of the slave and the timer are raised, and both are acknowledged, the timer first. -/
theorem picRun_right_iff_acked :
    (queryIntr (played [.raise 14, .raise 0]) = 32 ∧ queryIntr (played [.raise 14, .raise 0, .ack]) = 46) ∧
      (∀ a, Legal a (played [.raise 14, .raise 0, .ack, .ack]) → ∃ p', step a (played [.raise 14, .raise 0, .ack, .ack]) = some p') ∧
      Right {14} (played [.raise 14]) ∧ Right {0, 14} (played [.raise 14, .raise 0]) ∧
      Right {14} (played [.raise 14, .raise 0, .ack]) ∧ Right ∅ (played [.raise 14, .raise 0, .ack, .ack]) := by
  have hrun : PicRun [(∅, played [], .raise 14), ({14}, played [.raise 14], .raise 0), ({0, 14}, played [.raise 14, .raise 0], .ack),
      ({14}, played [.raise 14, .raise 0, .ack], .ack)] ∅ (played [.raise 14, .raise 0, .ack, .ack]) := by
    have h₀ : PicRun [] ∅ (played []) := .init
    have h₁ := picRun_played h₀ (.raise 14) (by decide : (14 : Line) ≠ 2) (by decide +kernel)
    have h₂ := picRun_played h₁ (.raise 0) (by decide : (0 : Line) ≠ 2) (by decide +kernel)
    have h₃ := picRun_played h₂ .ack (by decide +kernel : (played [.raise 14, .raise 0]).INTR = true) (by decide +kernel)
    exact picRun_played h₃ .ack (by decide +kernel : (played [.raise 14, .raise 0, .ack]).INTR = true) (by decide +kernel)
  obtain ⟨hlegal, hiff⟩ := picRun_right_iff hrun
  have hkeep : ∀ x ∈ [(∅, played [], Act.raise 14), ({14}, played [.raise 14], .raise 0), ({0, 14}, played [.raise 14, .raise 0], .ack),
      ({14}, played [.raise 14, .raise 0, .ack], .ack)], ¬ Drops x.2.2 x.1 := by
    simp only [List.forall_mem_cons, Drops, IsHighest, reduceCtorEq, false_and, not_false_eq_true, true_and, List.not_mem_nil,
      IsEmpty.forall_iff, implies_true, and_true]
    decide +kernel
  obtain ⟨hall, hlast⟩ := hiff.mpr hkeep
  simp only [List.forall_mem_cons] at hall
  exact ⟨by decide +kernel, hlegal, hall.2.1, hall.2.2.1, hall.2.2.2.1, hlast⟩

/-- Lines 8 and 14 are raised and line 8 is acknowledged: line 14 is pending, and
nothing is asked of the processor. -/
theorem ack_drops_slave :
    let p₁ := (step (.raise 8) init).getD init
    let p₂ := (step (.raise 14) p₁).getD p₁
    let p₃ := (step .ack p₂).getD p₂
    let S := (insert 14 (insert 8 ∅) : Finset Line)
    PicRun [(∅, init, .raise 8), (insert 8 ∅, p₁, .raise 14), (S, p₂, .ack)] (S.erase 8) p₃ ∧
      14 ∈ S.erase 8 ∧ p₃.INTR = false := by
  refine ⟨?_, by decide, by decide⟩
  exact .step (a := .ack) (.step (a := .raise 14) (.step (a := .raise 8) .init (by decide : (8 : Line) ≠ 2) rfl)
    (by decide : (14 : Line) ≠ 2) rfl) rfl rfl

end I8259

end Nemu
