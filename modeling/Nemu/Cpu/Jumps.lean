/-
# Which instructions jump

`raise_intr` leaves the running instruction by `longjmp`, and `int_i` is the only
instruction that calls it. Every other one returns to what executed it, so that
the statements after a nested `exec` run, unless it executes an `INT`.

Key definitions: `TableStraight`, `NoInt`.
Key theorems: `straight_opcodeTable`, `execWhile_straight`, `execStep_jump_int`.
-/
import Nemu.Cpu.Guarded

namespace Nemu

open Bytes Cmd Instr

set_option synthInstance.maxSize 10000

section Jumps

variable {P : Type}

/-! ### The operands -/

section Operands

variable (d : Width) (eip : Word)

instance (k : Slot) (i : Fin 8) : Straight (setRegOperand (P := P) d k i) := by
  unfold setRegOperand
  infer_instance
instance (k : Slot) : Straight (decodeA (P := P) d k) := by unfold decodeA; infer_instance
instance (k : Slot) : Straight (decodeRInternal (P := P) d k) := by
  unfold decodeRInternal
  infer_instance
instance (i : Word) : Straight (checkRegIndex (P := P) i) := by unfold checkRegIndex; infer_instance
instance : Straight (decodeN (P := P) eip) := by unfold decodeN; infer_instance

variable [Bus P]

instance : Straight (decodeI (P := P) d eip) := by unfold decodeI; infer_instance
instance : Straight (decodeSi (P := P) d eip) := by unfold decodeSi; infer_instance
instance : Straight (decodeI2a (P := P) d eip) := by unfold decodeI2a; infer_instance
instance : Straight (decodeIRm2r (P := P) d eip) := by unfold decodeIRm2r; infer_instance
instance : Straight (decodeI2rm (P := P) d eip) := by unfold decodeI2rm; infer_instance
instance : Straight (decodeI2r (P := P) d eip) := by unfold decodeI2r; infer_instance
instance : Straight (decodeRm (P := P) d eip) := by unfold decodeRm; infer_instance
instance : Straight (decodeR (P := P) d eip) := by unfold decodeR; infer_instance
instance : Straight (decodeSi2rm (P := P) d eip) := by unfold decodeSi2rm; infer_instance
instance : Straight (decodeSiRm2r (P := P) d eip) := by unfold decodeSiRm2r; infer_instance
instance : Straight (decodeRm1 (P := P) d eip) := by unfold decodeRm1; infer_instance
instance : Straight (decodeRmCl (P := P) d eip) := by unfold decodeRmCl; infer_instance
instance : Straight (decodeRmImm (P := P) d eip) := by unfold decodeRmImm; infer_instance
instance (k : Slot) (v : Word) : Straight (writeOperand (P := P) d k v) := by
  unfold writeOperand
  infer_instance

end Operands

/-! ### The second half of an instruction -/

section Execute

variable (d : Width)

instance (r : Word) : Straight (setResultFlags (P := P) d r) := by
  unfold setResultFlags
  infer_instance
instance (x y r : Word) : Straight (setAddFlags (P := P) d x y r) := by
  unfold setAddFlags
  infer_instance
instance (c : Bool) (x y r : Word) : Straight (setSubFlags (P := P) d c x y r) := by
  unfold setSubFlags
  infer_instance
instance (r : Word) : Straight (setLogicFlags (P := P) d r) := by
  unfold setLogicFlags
  infer_instance
instance (r : ℤ) : Straight (setDouble (P := P) d r) := by unfold setDouble; infer_instance
instance (b q r : ℤ) : Straight (setQuotient (P := P) d b q r) := by
  unfold setQuotient
  infer_instance
instance (i : Fin 8) : Straight (stepIndex (P := P) d i) := by unfold stepIndex; infer_instance

variable [Bus P]

instance : Straight (doAdd (P := P) d) := by unfold doAdd; infer_instance
instance : Straight (doAdc (P := P) d) := by unfold doAdc; infer_instance
instance : Straight (doSub (P := P) d) := by unfold doSub; infer_instance
instance : Straight (doSbb (P := P) d) := by
  unfold doSbb
  dsimp only
  infer_instance
instance : Straight (doCmp (P := P) d) := by unfold doCmp; infer_instance
instance (f : Word → Word → Word) : Straight (doLogic (P := P) d f) := by
  unfold doLogic
  infer_instance
instance : Straight (doAnd (P := P) d) := by unfold doAnd; infer_instance
instance : Straight (doOr (P := P) d) := by unfold doOr; infer_instance
instance : Straight (doXor (P := P) d) := by unfold doXor; infer_instance
instance : Straight (doTest (P := P) d) := by unfold doTest; infer_instance
instance : Straight (doInc (P := P) d) := by unfold doInc; infer_instance
instance : Straight (doDec (P := P) d) := by unfold doDec; infer_instance
instance : Straight (doNeg (P := P) d) := by unfold doNeg; infer_instance
instance : Straight (doNot (P := P) d) := by unfold doNot; infer_instance
instance (c : Word → Bool) (f : Word → ℕ → Word) : Straight (doShift (P := P) d c f) := by
  unfold doShift
  infer_instance
instance : Straight (doShl (P := P) d) := by unfold doShl; infer_instance
instance : Straight (doShr (P := P) d) := by unfold doShr; infer_instance
instance : Straight (doSar (P := P) d) := by unfold doSar; infer_instance
instance : Straight (doShrd (P := P) d) := by unfold doShrd; infer_instance
instance : Straight (doMul (P := P) d) := by unfold doMul; infer_instance
instance : Straight (doImul (P := P) d) := by unfold doImul; infer_instance
instance : Straight (doDiv (P := P) d) := by unfold doDiv; infer_instance
instance : Straight (doIdiv (P := P) d) := by
  unfold doIdiv
  dsimp only
  infer_instance
instance : Straight (doMov (P := P) d) := by unfold doMov; infer_instance
instance : Straight (doXchg (P := P) d) := by unfold doXchg; infer_instance
instance : Straight (doBt (P := P) d) := by unfold doBt; infer_instance
instance : Straight (doPush (P := P) d) := by
  unfold doPush
  dsimp only
  infer_instance
instance : Straight (doPop (P := P) d) := by unfold doPop; infer_instance
instance (v : Word) : Straight (pushReg (P := P) d v) := by unfold pushReg; infer_instance
instance (i : Fin 8) : Straight (popReg (P := P) d i) := by unfold popReg; infer_instance
instance : Straight (doMovs (P := P) d) := by unfold doMovs; infer_instance
instance : Straight (doStos (P := P) d) := by unfold doStos; infer_instance
instance : Straight (doLods (P := P) d) := by unfold doLods; infer_instance
instance : Straight (doScas (P := P) d) := by unfold doScas; infer_instance
instance : Straight (doJmp (P := P) d) := by unfold doJmp; infer_instance
instance (i : Fin 6) (v : BitVec 16) : Straight (loadSreg (P := P) i v) := by
  unfold loadSreg
  dsimp only
  infer_instance

end Execute

/-! ### Instructions -/

section Helpers

variable [Bus P] (d : Width) (eip : Word)

instance (decode : Helper P) (execute : Cmd (Machine P) Unit) [∀ eip, Straight (decode eip)]
    [Straight execute] : Straight (idex decode execute eip) := by
  unfold idex
  infer_instance
instance (h : Width → Helper P) [∀ d, Straight (h d eip)] : Straight (helperV h eip) := by
  unfold helperV
  infer_instance
instance : Straight (movA2moffs (P := P) d eip) := by unfold movA2moffs; infer_instance
instance : Straight (movMoffs2a (P := P) d eip) := by unfold movMoffs2a; infer_instance
instance : Straight (movCr2r (P := P) eip) := by unfold movCr2r; infer_instance
instance : Straight (movR2cr (P := P) eip) := by unfold movR2cr; infer_instance
instance : Straight (movRm2s (P := P) eip) := by unfold movRm2s; infer_instance
instance (s : Width) (f : Word → Word) : Straight (movExt (P := P) s f d eip) := by
  unfold movExt
  infer_instance
instance : Straight (movzb (P := P) d eip) := by unfold movzb; infer_instance
instance : Straight (movsb (P := P) d eip) := by unfold movsb; infer_instance
instance : Straight (movzwL (P := P) eip) := by unfold movzwL; infer_instance
instance : Straight (movswL (P := P) eip) := by unfold movswL; infer_instance
instance : Straight (xchgA2r (P := P) d eip) := by unfold xchgA2r; infer_instance
instance : Straight (lea (P := P) eip) := by unfold lea; infer_instance
instance : Straight (cltd (P := P) d eip) := by unfold cltd; infer_instance
instance : Straight (cwtl (P := P) d eip) := by
  unfold cwtl
  dsimp only
  infer_instance
instance (set : DescReg → Machine P → Machine P) : Straight (loadDescReg d set eip) := by
  unfold loadDescReg
  infer_instance
instance : Straight (lgdt (P := P) d eip) := by unfold lgdt; infer_instance
instance : Straight (lidt (P := P) d eip) := by unfold lidt; infer_instance
instance : Straight (btR2rm (P := P) d eip) := by unfold btR2rm; infer_instance
instance : Straight (btI2rm (P := P) d eip) := by unfold btI2rm; infer_instance
instance : Straight (pusha (P := P) d eip) := by unfold pusha; infer_instance
instance : Straight (popa (P := P) d eip) := by unfold popa; infer_instance
instance : Straight (leave (P := P) eip) := by unfold leave; infer_instance
instance (c : Cc) : Straight (setcc (P := P) c eip) := by unfold setcc; infer_instance
instance (check : Machine P → Bool) : Straight (cmov d check eip) := by unfold cmov; infer_instance
instance : Straight (cmove (P := P) d eip) := by unfold cmove; infer_instance
instance : Straight (cmovle (P := P) d eip) := by unfold cmovle; infer_instance
instance : Straight (nextAddr (P := P) d eip) := by unfold nextAddr; infer_instance
instance (c : Cc) : Straight (jcc (P := P) d c eip) := by unfold jcc; infer_instance
instance : Straight (jmpL (P := P) d eip) := by
  unfold jmpL
  dsimp only
  infer_instance
instance : Straight (callI (P := P) d eip) := by unfold callI; infer_instance
instance : Straight (callRm (P := P) d eip) := by unfold callRm; infer_instance
instance : Straight (retO (P := P) d eip) := by unfold retO; infer_instance
instance : Straight (retI (P := P) d eip) := by unfold retI; infer_instance
instance : Straight (iret (P := P) eip) := by unfold iret; infer_instance
instance : Straight (inI (P := P) d eip) := by unfold inI; infer_instance
instance : Straight (inD (P := P) d eip) := by unfold inD; infer_instance
instance : Straight (outI (P := P) d eip) := by unfold outI; infer_instance
instance : Straight (outD (P := P) d eip) := by unfold outD; infer_instance
instance : Straight (hlt (P := P) eip) := by unfold hlt; infer_instance
instance : Straight (cli (P := P) eip) := by unfold cli; infer_instance
instance : Straight (sti (P := P) eip) := by unfold sti; infer_instance
instance : Straight (cld (P := P) eip) := by unfold cld; infer_instance
instance : Straight (std (P := P) eip) := by unfold std; infer_instance
instance : Straight (nop (P := P) eip) := by unfold nop; infer_instance
instance : Straight (int3 (P := P) eip) := by unfold int3; infer_instance
instance : Straight (nemuTrap (P := P) eip) := by unfold nemuTrap; infer_instance
instance : Straight (inv (P := P) eip) := by unfold inv; infer_instance
instance : Straight (shrdi (P := P) d eip) := by unfold shrdi; infer_instance
instance : Straight (imulRm2r (P := P) d eip) := by unfold imulRm2r; infer_instance
instance : Straight (imulRm2a (P := P) d eip) := by unfold imulRm2a; infer_instance

end Helpers

/-! ### The tables -/

section Tables

/-- No entry of a table jumps. -/
class TableStraight (table : List (Helper P)) : Prop where
  straight : ∀ h ∈ table, ∀ eip, Straight (h eip)

instance : TableStraight (P := P) [] := ⟨fun _ h => nomatch h⟩

instance {h : Helper P} {table : List (Helper P)} [hh : ∀ eip, Straight (h eip)]
    [ht : TableStraight table] : TableStraight (h :: table) :=
  ⟨List.forall_mem_cons.mpr ⟨hh, ht.straight⟩⟩

variable [Bus P]

instance {table : List (Helper P)} [h : TableStraight table] (k : ℕ) (eip : Word) :
    Straight (entry table k eip) := by
  rw [entry, List.getD_eq_getElem?_getD]
  by_cases hk : k < table.length
  · rw [List.getElem?_eq_getElem hk]
    exact h.straight _ (List.getElem_mem hk) eip
  · rw [List.getElem?_eq_none (Nat.le_of_not_lt hk)]
    exact inferInstanceAs (Straight (abort : Cmd (Machine P) Word))

instance {table : List (Helper P)} [TableStraight table] (eip : Word) : Straight (group table eip) := by
  unfold group
  infer_instance

section Ops

variable (e : Width → Cmd (Machine P) Unit) (d : Width) (eip : Word) [he : Straight (e d)]

instance : Straight (opR2rm e d eip) := by unfold opR2rm; infer_instance
instance : Straight (opRm2r e d eip) := by unfold opRm2r; infer_instance
instance : Straight (opI2rm e d eip) := by unfold opI2rm; infer_instance
instance : Straight (opSi2rm e d eip) := by unfold opSi2rm; infer_instance
instance : Straight (opI2a e d eip) := by unfold opI2a; infer_instance
instance : Straight (opI2r e d eip) := by unfold opI2r; infer_instance
instance : Straight (opRm e d eip) := by unfold opRm; infer_instance
instance : Straight (opR e d eip) := by unfold opR; infer_instance
instance : Straight (opI e d eip) := by unfold opI; infer_instance
instance : Straight (opN e d eip) := by unfold opN; infer_instance
instance : Straight (opIRm2r e d eip) := by unfold opIRm2r; infer_instance
instance : Straight (opSiRm2r e d eip) := by unfold opSiRm2r; infer_instance
instance : Straight (opRm1 e d eip) := by unfold opRm1; infer_instance
instance : Straight (opRmCl e d eip) := by unfold opRmCl; infer_instance
instance : Straight (opRmImm e d eip) := by unfold opRmImm; infer_instance

end Ops

instance : TableStraight (P := P) group1B := by unfold group1B; infer_instance
instance : TableStraight (P := P) group1V := by unfold group1V; infer_instance
instance : TableStraight (P := P) group1SxV := by unfold group1SxV; infer_instance
instance : TableStraight (P := P) group2IB := by unfold group2IB; infer_instance
instance : TableStraight (P := P) group2IV := by unfold group2IV; infer_instance
instance : TableStraight (P := P) group21B := by unfold group21B; infer_instance
instance : TableStraight (P := P) group21V := by unfold group21V; infer_instance
instance : TableStraight (P := P) group2ClB := by unfold group2ClB; infer_instance
instance : TableStraight (P := P) group2ClV := by unfold group2ClV; infer_instance
instance : TableStraight (P := P) group3B := by unfold group3B; infer_instance
instance : TableStraight (P := P) group3V := by unfold group3V; infer_instance
instance : TableStraight (P := P) group4 := by unfold group4; infer_instance
instance : TableStraight (P := P) group5 := by unfold group5; infer_instance
instance : TableStraight (P := P) group6 := by unfold group6; infer_instance
instance : TableStraight (P := P) group7 := by unfold group7; infer_instance

set_option maxRecDepth 20000 in
instance : TableStraight (P := P) opcodeTable2 := by
  unfold opcodeTable2
  infer_instance

instance (eip : Word) : Straight (twoByteEsc (P := P) eip) := by unfold twoByteEsc; infer_instance

set_option maxRecDepth 20000 in
instance (exec : Helper P) (fuel : ℕ) :
    TableStraight (without (opcodeTable exec fuel) [0x66, 0xcd, 0xf2, 0xf3]) := by
  unfold without opcodeTable
  simp only [List.foldl_cons, List.foldl_nil, List.set_cons_succ, List.set_cons_zero]
  infer_instance

/-- The instructions other than `INT` and the prefixes return. -/
theorem straight_opcodeTable {k : ℕ} (hk : k ∉ [0x66, 0xcd, 0xf2, 0xf3]) (exec : Helper P) (fuel : ℕ)
    (eip : Word) : Straight (entry (opcodeTable exec fuel) k eip) := by
  rw [← entry_without hk]
  infer_instance

end Tables

/-! ### `INT` -/

section Int

variable [Bus P]

/-- The instruction is not `INT`. -/
def NoInt : Guard P := fun opcode _ _ => opcode.toNat ≠ 0xcd

omit [Bus P] in
instance (count : ℕ) : Straight (countUp (P := P) count) := by unfold countUp; infer_instance

omit [Bus P] in
instance (name count : ℕ) : Straight (printRep (P := P) name count) := by unfold printRep; infer_instance

omit [Bus P] in
theorem repLoop_straight {e : Helper P} (h : ∀ eip, Straight (e eip)) (z : Bool) (eip : Word)
    (fuel count : ℕ) : Straight (repLoop e z eip fuel count) := by
  induction fuel generalizing count with
  | zero =>
    unfold repLoop
    infer_instance
  | succ fuel ih =>
    unfold repLoop
    infer_instance

/-- **Without an `INT` an instruction does not jump.** -/
theorem execWhile_straight : ∀ fuel eip, Straight (execWhile (P := P) NoInt fuel eip) := by
  intro fuel
  induction fuel with
  | zero => exact fun eip => inferInstanceAs (Straight (outOfFuel : Cmd (Machine P) Word))
  | succ fuel ih =>
    intro eip
    unfold execWhile
    refine @Straight.bind _ _ _ _ _ inferInstance fun opcode => ?_
    refine @Straight.bind _ _ _ _ _ inferInstance fun _ => ⟨fun m => ?_⟩
    by_cases hG : NoInt opcode eip m
    · rw [asserting_pos hG]
      by_cases hp : opcode.toNat ∈ [0x66, 0xf2, 0xf3]
      · simp only [List.mem_cons, List.not_mem_nil, or_false] at hp
        rcases hp with h | h | h
        · rw [h, entry_operandSize]
          have hprefix : Straight (operandSize (execWhile (P := P) NoInt fuel) eip) := by
            unfold operandSize
            infer_instance
          exact hprefix.ends m
        · rw [h, entry_repnz]
          have hloop := repLoop_straight ih true eip fuel
          have hprefix : Straight (repnz (execWhile (P := P) NoInt fuel) fuel eip) := by
            unfold repnz
            infer_instance
          exact hprefix.ends m
        · rw [h, entry_rep]
          have hloop := repLoop_straight ih false eip fuel
          have hprefix : Straight (rep (execWhile (P := P) NoInt fuel) fuel eip) := by
            unfold rep
            infer_instance
          exact hprefix.ends m
      · have hk : opcode.toNat ∉ [0x66, 0xcd, 0xf2, 0xf3] := by
          simp only [List.mem_cons, List.not_mem_nil, or_false] at hp ⊢
          unfold NoInt at hG
          omega
        exact (straight_opcodeTable hk _ fuel eip).ends m
    · rw [asserting_neg hG]
      trivial

/-- A step that jumps executes an `INT`. -/
theorem execStep_jump_int {fuel : ℕ} {m m' : Machine P} (h : execStep fuel m = .jump m') :
    execStepWhile NoInt fuel m = .abort .assertion := by
  have hexec := execWhile_straight (P := P)
  have hstraight : Straight (execStepWhile (P := P) NoInt fuel) := by
    unfold execStepWhile
    infer_instance
  have hagree : Agree (fun _ o _ => o = .abort .assertion) (execStepWhile (P := P) NoInt fuel)
      (execStep fuel) := by
    refine .bind_same fun eip => .bind (I := fun _ => True) ?_ (execWhile_or_exec fuel eip)
      (fun _ => .refl _) fun _ => inferInstance
    intro α β o o' k l ho _
    rw [ho]
    rfl
  rcases hagree m with heq | habort
  · exact absurd (heq.trans h) Straight.ne_jump
  · exact habort

end Int

end Jumps

end Nemu
