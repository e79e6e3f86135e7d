/-
# An interrupted program

`raise_intr` pushes three words, a vector of `do_irq.S` two, and `asm_do_irq` the
registers and a pointer to all of this, the `TrapFrame` of `irq_handle`. On the
way back `popal` takes the registers and `iret` the rest. The registers that the
frame holds are those of the interrupted program, except `old_esp`: `pushal`
stores the stack pointer after the first five words, and `popal` skips it.

Key definitions: `TrapFrame`, `Installed`, `enterIrq`, `leaveIrq`, `Entered`,
`Handled`, `Restored`.
Key theorems: `enterIrq_entered`, `leaveIrq_restored`, `interrupt_transparent`.
-/
import Nemu.Cpu.Trap
import Mathlib.Data.Fintype.Basic
import Mathlib.Tactic.FinCases

namespace Nemu

open Bytes Cmd Instr WordMem

set_option synthInstance.maxSize 10000

/-! ### The kernel's side -/

/-- `TrapFrame`. -/
structure TrapFrame where
  edi : Word
  esi : Word
  ebp : Word
  oldEsp : Word
  ebx : Word
  edx : Word
  ecx : Word
  eax : Word
  irq : Word
  errorCode : Word
  eip : Word
  cs : Word
  eflags : Word

/-- The frame that begins at this address. -/
def TrapFrame.load (f : Mem) (a : Word) : TrapFrame where
  edi := peek f a 4
  esi := peek f (a + 4) 4
  ebp := peek f (a + 8) 4
  oldEsp := peek f (a + 12) 4
  ebx := peek f (a + 16) 4
  edx := peek f (a + 20) 4
  ecx := peek f (a + 24) 4
  eax := peek f (a + 28) 4
  irq := peek f (a + 32) 4
  errorCode := peek f (a + 36) 4
  eip := peek f (a + 40) 4
  cs := peek f (a + 44) 4
  eflags := peek f (a + 48) 4

/-- `pushal; pushl %esp; call irq_handle`. -/
def enterCode (disp : Word) : List Byte := [0x60, 0x54] ++ 0xe8 :: immediate disp

/-- `addl $4, %esp; popal; addl $8, %esp; iret`. -/
def leaveCode : List Byte := [0x83, 0xc4, 4, 0x61, 0x83, 0xc4, 8, 0xcf]

/-- The 60 bytes below the stack pointer, which the frame and the call take. -/
def CpuState.below (c : CpuState) : Word → Prop := In (c.gpr rESP - 60) 60

instance (c : CpuState) : DecidablePred c.below := fun _ => inferInstanceAs (Decidable (In _ _ _))

/-- The gate of a vector leads through a flat segment to an entry that pushes 0
and `id`, and on to `asm_do_irq`, which calls `handler`. None of this is where the
frame goes. -/
structure Installed (no : Byte) (id vector entry handler : Word) (c : CpuState) (f : Mem) : Prop where
  gate : ∃ (type : BitVec 4) (selector dpl : Word) (desc : SegmentDescriptor),
    CodeAt c.below f (c.gate no) (setGate type selector vector dpl).bytes ∧
    CodeAt c.below f (c.descriptor (selector.setWidth 16)) desc.bytes ∧ desc.base = 0
  vectorCode : ∃ (c₀ c₁ c₂ : List Byte) (disp : Word), PushCode 0 c₀ ∧ PushCode id c₁ ∧
    JmpCode disp c₂ ∧ CodeAt c.below f vector (c₀ ++ (c₁ ++ c₂)) ∧
    vector + BitVec.ofNat 32 c₀.length + BitVec.ofNat 32 c₁.length + BitVec.ofNat 32 c₂.length + disp = entry
  stub : ∃ disp : Word, CodeAt c.below f entry (enterCode disp ++ leaveCode) ∧ entry + 7 + disp = handler

section Trap

variable {P : Type} [Bus P] [Ram P]

/-- The delivery, and the instructions up to the first of `irq_handle`. -/
def enterIrq (no : Byte) (fuel : ℕ) : Cmd (Machine P) Unit := do
  setjmp (raiseIntr no)
  execStep fuel -- pushl $0
  execStep fuel -- pushl $id
  execStep fuel -- jmp asm_do_irq
  execStep fuel -- pushal
  execStep fuel -- pushl %esp
  execStep fuel -- call irq_handle

/-- From the `ret` of `irq_handle` on. -/
def leaveIrq (fuel : ℕ) : Cmd (Machine P) Unit := do
  execStep fuel -- ret
  execStep fuel -- addl $4, %esp
  execStep fuel -- popal
  execStep fuel -- addl $8, %esp
  execStep fuel -- iret

/-- What `irq_handle` finds: the registers of `m` in the frame, and memory as in `m`
outside of it. -/
structure Entered (id entry handler : Word) (m m₁ : Machine P) : Prop where
  cpu : ∃ (selector : BitVec 16) (cache : SegDesc), cache.base = 0 ∧
    m₁.cpu = (m.cpu.withCs selector cache).moved (m.reg .l rESP - 60) handler
  size : m₁.ops.isOperandSize16 = false
  address : peek m₁.mem (m.reg .l rESP - 60) 4 = entry + 6
  argument : peek m₁.mem (m.reg .l rESP - 56) 4 = m.reg .l rESP - 52
  frame : TrapFrame.load m₁.mem (m.reg .l rESP - 52) =
    { edi := m.reg .l rEDI
      esi := m.reg .l rESI
      ebp := m.reg .l rEBP
      oldEsp := m.reg .l rESP - 20
      ebx := m.reg .l 3
      edx := m.reg .l rEDX
      ecx := m.reg .l rECX
      eax := m.reg .l rEAX
      irq := id
      errorCode := 0
      eip := m.eip
      cs := (m.cpu.sreg 1).selector.setWidth 32
      eflags := m.cpu.eflags }
  mem : ∀ x, ¬ m.cpu.below x → m₁.mem x = m.mem x

/-- What the body of `irq_handle` may do until its `ret`: everything but write the
return address, the frame (a system call writes `eax` there) and the stub. -/
structure Handled (sys : Bool) (entry : Word) (m₁ m₂ : Machine P) : Prop where
  cpu : m₂.cpu = { m₁.cpu with gpr := m₂.cpu.gpr, eflags := m₂.cpu.eflags, eip := m₂.cpu.eip }
  esp : m₂.reg .l rESP = m₁.reg .l rESP
  size : m₂.ops.isOperandSize16 = false
  ret : m₂.mem m₂.eip = 0xc3
  address : ∀ x, In (m₁.reg .l rESP) 4 x → m₂.mem x = m₁.mem x
  frame : ∀ x, In (m₁.reg .l rESP + 8) 52 x → ¬ (sys = true ∧ In (m₁.reg .l rESP + 36) 4 x) →
    m₂.mem x = m₁.mem x
  stub : ∀ x, In (entry + 7) 8 x → m₂.mem x = m₁.mem x

/-- All registers are as in `m`, but for the `eax` of a system call and what the
cache of `cs` holds besides its base; and memory is as the handler left it. -/
structure Restored (sys : Bool) (m m₁ m₂ m' : Machine P) : Prop where
  cpu : ∃ cache : SegDesc, cache.base = 0 ∧ m'.cpu =
    { m.cpu.withCs (m.cpu.sreg 1).selector cache with
      gpr := if sys then Function.update m.cpu.gpr rEAX (TrapFrame.load m₂.mem (m.reg .l rESP - 52)).eax
        else m.cpu.gpr }
  mem : m'.mem = m₂.mem
  above : ∀ x, ¬ m.cpu.below x → m₂.mem x = m₁.mem x → m'.mem x = m.mem x

variable {E : Failure → Prop} [hE : Accesses P E] {no : Byte} {id vector entry handler : Word}
  {sys : Bool} {fuel : ℕ} {c : CpuState} {f : Mem} {m m₁ m₂ : Machine P}

/-! ### The way in -/

/-- The words that are on the stack when `irq_handle` is entered. -/
def frameWords (c : CpuState) (id entry : Word) : List Word :=
  c.intrWords ++ [0, id] ++ pushaWords c (c.gpr rESP - 20) ++ [c.gpr rESP - 52, entry + 6]

omit [Bus P] [Ram P] hE in
theorem not_in_below {n : ℕ} (hn : n ≤ 15) {x : Word} (hx : ¬ c.below x) :
    ¬ In (c.gpr rESP - BitVec.ofNat 32 (4 * n)) (4 * n) x := by
  unfold CpuState.below In at *
  intro hin
  apply hx
  have h60 : (60 : Word) = BitVec.ofNat 32 60 := rfl
  bv_omega

omit [Bus P] [Ram P] hE in
/-- The pushes leave what is not below the stack pointer. -/
theorem pushWords_kept {vs : List Word} (hn : vs.length ≤ 15) {x : Word} (hx : ¬ c.below x) :
    (pushWords (c.gpr rESP, f) vs).2 x = f x :=
  pushWords_out (by omega) (not_in_below hn hx)

omit [Bus P] [Ram P] hE in
theorem codeAt_pushWords {vs : List Word} (hn : vs.length ≤ 15) {a : Word} {code : List Byte}
    (h : CodeAt c.below f a code) : CodeAt c.below (pushWords (c.gpr rESP, f) vs).2 a code :=
  h.congr fun _ => pushWords_kept hn

omit [Bus P] [Ram P] hE in
/-- **The delivery** pushes three words and goes to the vector. -/
theorem vectored_installed (hflat : c.Flat) (hinst : Installed no id vector entry handler c f) :
    ∃ (selector : BitVec 16) (cache : SegDesc), cache.base = 0 ∧ c.vectored f no =
      ((c.withCs selector cache).moved (pushWords (c.gpr rESP, f) c.intrWords).1 vector,
        (pushWords (c.gpr rESP, f) c.intrWords).2) := by
  obtain ⟨type, selector, dpl, desc, hgate, hdesc, hbase⟩ := hinst.gate
  have hn : c.intrWords.length ≤ 15 := show 3 ≤ 15 by decide
  have hframed : c.framed f = pushWords (c.gpr rESP, f) c.intrWords := by
    rw [CpuState.framed, hflat _ 2 (by decide)]
  have htop : (pushWords (c.gpr rESP, f) c.intrWords).1 = c.gpr rESP - 12 := pushWords_top ..
  obtain ⟨hsel, hoffset⟩ := peek_gate (codeAt_pushWords hn hgate)
  have hload := base_load (codeAt_pushWords hn hdesc)
  refine ⟨selector.setWidth 16, .load (pushWords (c.gpr rESP, f) c.intrWords).2
    (c.descriptor (selector.setWidth 16)), hload.trans hbase, ?_⟩
  unfold CpuState.vectored
  dsimp only
  rw [hframed, hsel, hoffset, hload, hbase, htop, show 0 + vector = vector from BitVec.zero_add _]

omit [Bus P] [Ram P] hE in
theorem pushWord_pushWords (t : Word × Mem) (vs : List Word) (v : Word) :
    pushWord (pushWords t vs) v = pushWords t (vs ++ [v]) := by
  rw [pushWords, pushWords, List.foldl_append]
  rfl

omit [Bus P] [Ram P] hE in
theorem pushWords_pushWords (t : Word × Mem) (vs ws : List Word) :
    pushWords (pushWords t vs) ws = pushWords t (vs ++ ws) :=
  List.foldl_append.symm

/-- **The way in.** Fifteen words are pushed. -/
theorem enterIrq_sim (hflat : c.Flat) (hinst : Installed no id vector entry handler c f)
    (h : Sim [] false (c, f) m) :
    Returns (fun _ m₁ => ∃ (selector : BitVec 16) (cache : SegDesc), cache.base = 0 ∧
      Sim [] false ((c.withCs selector cache).moved (c.gpr rESP - 60) handler,
        (pushWords (c.gpr rESP, f) (frameWords c id entry)).2) m₁) (enterIrq no (fuel + 1) m) E := by
  obtain ⟨selector, cache, hbase, hvec⟩ := vectored_installed hflat hinst
  obtain ⟨c₀, c₁, c₂, disp₀, hpush₀, hpush₁, hjmp, hcode, hentry⟩ := hinst.vectorCode
  obtain ⟨disp, hstub, hhandler⟩ := hinst.stub
  have hflat' : (c.withCs selector cache).Flat := hflat.withCs hbase
  have hraise : Returns (fun _ => Sim [] false (c.vectored f no)) (setjmp (raiseIntr no) m) E :=
    raiseIntr_sim no h
  rw [hvec] at hraise
  unfold enterIrq
  refine hraise.bind fun _ m₁ h₁ => ?_
  -- the vector
  refine (push_step hpush₀ (codeAt_pushWords (by simp [CpuState.intrWords]) hcode.left) hflat' h₁).bind
    fun _ m₂ h₂ => ?_
  rw [pushWord_pushWords] at h₂
  refine (push_step hpush₁ (codeAt_pushWords (by simp [CpuState.intrWords]) hcode.right.left) hflat' h₂).bind
    fun _ m₃ h₃ => ?_
  rw [pushWord_pushWords] at h₃
  have h20 : (pushWords (c.gpr rESP, f) (c.intrWords ++ [0] ++ [id])).1 = c.gpr rESP - 20 := pushWords_top ..
  refine (jmp_step hjmp (codeAt_pushWords (by simp [CpuState.intrWords]) hcode.right.right) hflat' h₃).bind
    fun _ m₄ h₄ => ?_
  rw [hentry] at h₄
  -- `asm_do_irq`
  have hpushal : CodeAt c.below f entry ([0x60] ++ [0x54]) := hstub.left.left
  have hpushl : CodeAt c.below f (entry + 1) [0x54] := hpushal.right
  have hcall : CodeAt c.below f (entry + 2) (0xe8 :: immediate disp) := hstub.left.right
  refine (pusha_step (codeAt_pushWords (by simp [CpuState.intrWords]) hpushal.left) hflat' h₄).bind
    fun _ m₅ h₅ => ?_
  rw [pushWords_pushWords, h20] at h₅
  have h52 : (pushWords (c.gpr rESP, f) (c.intrWords ++ [0] ++ [id] ++
      pushaWords (c.withCs selector cache) (c.gpr rESP - 20))).1 = c.gpr rESP - 52 := pushWords_top ..
  refine (pushEsp_step (codeAt_pushWords (by simp [CpuState.intrWords, pushaWords]) hpushl) hflat' h₅).bind
    fun _ m₆ h₆ => ?_
  rw [pushWord_pushWords, h52, show entry + 1 + 1 = entry + 2 from BitVec.add_assoc ..] at h₆
  refine (call_step (codeAt_pushWords (by simp [CpuState.intrWords, pushaWords]) hcall) hflat' h₆).mono
    fun _ m₇ h₇ => ?_
  refine ⟨selector, cache, hbase, ?_⟩
  have h60 : (pushWords (c.gpr rESP, f) (frameWords c id entry)).1 = c.gpr rESP - 60 := pushWords_top ..
  have hnext : entry + 2 + 5 + disp = handler := by
    rw [← hhandler, show entry + 2 + 5 = entry + 7 from BitVec.add_assoc ..]
  have hwords : c.intrWords ++ [0] ++ [id] ++ pushaWords (c.withCs selector cache) (c.gpr rESP - 20) ++
      [c.gpr rESP - 52] ++ [entry + 2 + 4] = frameWords c id entry := by
    rw [show entry + 2 + 4 = entry + 6 from BitVec.add_assoc ..]
    rfl
  rw [pushWord_pushWords, hwords, h60, hnext] at h₇
  exact h₇

omit [Bus P] [Ram P] hE in
/-- The frame on the stack. -/
theorem load_of_stack {g : Mem} {a edi esi ebp oldEsp ebx edx ecx eax irq errorCode eip cs eflags : Word}
    (h : StackIs g a [edi, esi, ebp, oldEsp, ebx, edx, ecx, eax, irq, errorCode, eip, cs, eflags]) :
    TrapFrame.load g a = ⟨edi, esi, ebp, oldEsp, ebx, edx, ecx, eax, irq, errorCode, eip, cs, eflags⟩ := by
  simp only [StackIs, BitVec.add_assoc, and_true] at h
  rcases h with ⟨h0, h4, h8, h12, h16, h20, h24, h28, h32, h36, h40, h44, h48⟩
  rw [← h0, ← h4, ← h8, ← h12, ← h16, ← h20, ← h24, ← h28, ← h32, ← h36, ← h40, ← h44, ← h48]
  rfl

theorem enterIrq_entered (hflat : m.cpu.Flat) (hsize : m.ops.isOperandSize16 = false)
    (hinst : Installed no id vector entry handler m.cpu m.mem) :
    Returns (fun _ => Entered id entry handler m) (enterIrq no (fuel + 1) m) E := by
  have h : Sim [] false (m.cpu, m.mem) m := ⟨rfl, Only.refl _ _, rfl, hsize⟩
  refine (enterIrq_sim hflat hinst h).mono fun _ m₁ hsim => ?_
  obtain ⟨selector, cache, hbase, h₁⟩ := hsim
  have hmem : m₁.mem = (pushWords (m.cpu.gpr rESP, m.mem) (frameWords m.cpu id entry)).2 := h₁.mem
  have hstack : StackIs m₁.mem (m.cpu.gpr rESP - 60) (frameWords m.cpu id entry).reverse := by
    have hpush : StackIs (pushWords (m.cpu.gpr rESP, m.mem) (frameWords m.cpu id entry)).2 _
        ((frameWords m.cpu id entry).reverse ++ []) := pushWords_stack _ trivial (show 4 * 15 ≤ 2 ^ 32 by decide)
    have htop : (pushWords (m.cpu.gpr rESP, m.mem) (frameWords m.cpu id entry)).1 = m.cpu.gpr rESP - 60 :=
      pushWords_top ..
    rwa [List.append_nil, ← hmem, htop] at hpush
  obtain ⟨haddress, hargument, hframe⟩ := hstack
  have h56 : m.cpu.gpr rESP - 60 + 4 = m.cpu.gpr rESP - 56 := by bv_omega
  have h52 : m.cpu.gpr rESP - 56 + 4 = m.cpu.gpr rESP - 52 := by bv_omega
  rw [h56] at hargument hframe
  rw [h52] at hframe
  exact ⟨⟨selector, cache, hbase, h₁.cpu_eq⟩, h₁.size, haddress, hargument, load_of_stack hframe,
    fun x hx => (congrFun hmem x).trans (pushWords_kept (by simp [frameWords, CpuState.intrWords, pushaWords]) hx)⟩

/-! ### The way back -/

/-- The registers of a frame, with this stack pointer. -/
def TrapFrame.gpr (t : TrapFrame) (esp : Word) : Fin 8 → Word
  | 0 => t.eax
  | 1 => t.ecx
  | 2 => t.edx
  | 3 => t.ebx
  | 4 => esp
  | 5 => t.ebp
  | 6 => t.esi
  | 7 => t.edi

omit [Bus P] [Ram P] hE in
theorem popaRegs_eq (c : CpuState) (g : Mem) (a : Word) :
    popaRegs c g a = { c with gpr := (TrapFrame.load g a).gpr (c.gpr rESP) } := by
  have hgpr : (popaRegs c g a).gpr = (TrapFrame.load g a).gpr (c.gpr rESP) := by
    funext i
    simp only [popaRegs, BitVec.add_assoc]
    fin_cases i <;> rfl
  calc
    popaRegs c g a = { c with gpr := (popaRegs c g a).gpr } := rfl
    _ = { c with gpr := (TrapFrame.load g a).gpr (c.gpr rESP) } := by rw [hgpr]

omit [Bus P] [Ram P] hE in
theorem TrapFrame.update_gpr (t : TrapFrame) (a esp : Word) :
    Function.update (t.gpr a) rESP esp = t.gpr esp := by
  funext i
  fin_cases i <;> rfl

omit [Bus P] [Ram P] hE in
/-- A frame in which only `eax` was written. -/
theorem TrapFrame.load_congr {f g : Mem} {a : Word} (h : ∀ x, In a 52 x → ¬ In (a + 28) 4 x → g x = f x) :
    TrapFrame.load g a = { TrapFrame.load f a with eax := (TrapFrame.load g a).eax } := by
  have hword : ∀ k : Word, k.toNat ≤ 48 → k.toNat + 4 ≤ 28 ∨ 32 ≤ k.toNat →
      peek g (a + k) 4 = peek f (a + k) 4 := by
    intro k hk hout
    refine peek_congr le_rfl fun x hx => h x ?_ ?_
    · unfold In at hx ⊢
      bv_omega
    · unfold In at hx ⊢
      bv_omega
  have hfirst : peek g a 4 = peek f a 4 := by
    have h0 := hword 0 (by decide) (by decide)
    rwa [show a + 0 = a from BitVec.add_zero a] at h0
  unfold TrapFrame.load
  rw [hfirst, hword 4 (by decide) (by decide), hword 8 (by decide) (by decide), hword 12 (by decide) (by decide),
    hword 16 (by decide) (by decide), hword 20 (by decide) (by decide), hword 24 (by decide) (by decide),
    hword 32 (by decide) (by decide), hword 36 (by decide) (by decide), hword 40 (by decide) (by decide),
    hword 44 (by decide) (by decide), hword 48 (by decide) (by decide)]

/-- The frame when `irq_handle` returns. -/
theorem Handled.frame_eq (he : Entered id entry handler m m₁) (hh : Handled sys entry m₁ m₂) :
    TrapFrame.load m₂.mem (m.reg .l rESP - 52) =
      { TrapFrame.load m₁.mem (m.reg .l rESP - 52) with
        eax := if sys then (TrapFrame.load m₂.mem (m.reg .l rESP - 52)).eax else m.reg .l rEAX } := by
  obtain ⟨selector, cache, -, hcpu⟩ := he.cpu
  have hesp : m₁.reg .l rESP = m.reg .l rESP - 60 := by
    rw [Machine.reg, hcpu]
    exact CpuState.reg_moved
  have h52 : m₁.reg .l rESP + 8 = m.reg .l rESP - 52 := by
    rw [hesp]
    bv_omega
  have h24 : m₁.reg .l rESP + 36 = m.reg .l rESP - 52 + 28 := by
    rw [hesp]
    bv_omega
  have hframe := hh.frame
  rw [h52, h24] at hframe
  have hload := TrapFrame.load_congr fun x hx hout => hframe x hx fun h => hout h.2
  cases hsys : sys with
  | true => exact hload
  | false =>
    have heax : (TrapFrame.load m₂.mem (m.reg .l rESP - 52)).eax = m.reg .l rEAX := by
      have hsame : (TrapFrame.load m₂.mem (m.reg .l rESP - 52)).eax =
          (TrapFrame.load m₁.mem (m.reg .l rESP - 52)).eax := by
        refine peek_congr le_rfl fun x hx => hframe x ?_ fun h => Bool.noConfusion (hsys.symm.trans h.1)
        unfold In at hx ⊢
        bv_omega
      rw [hsame, he.frame]
    rw [heax] at hload
    exact hload

/-- The general registers that it gives back. -/
theorem Handled.gpr_eq (he : Entered id entry handler m m₁) (hh : Handled sys entry m₁ m₂) :
    (TrapFrame.load m₂.mem (m.reg .l rESP - 52)).gpr (m.reg .l rESP) =
      if sys then Function.update m.cpu.gpr rEAX (TrapFrame.load m₂.mem (m.reg .l rESP - 52)).eax
      else m.cpu.gpr := by
  have hframe := (hh.frame_eq he).trans (by rw [he.frame])
  generalize TrapFrame.load m₂.mem (m.reg .l rESP - 52) = t at hframe
  have hother : ∀ i ≠ rEAX, (if sys then Function.update m.cpu.gpr rEAX t.eax else m.cpu.gpr) i = m.cpu.gpr i := by
    intro i hi
    split_ifs
    · exact Function.update_of_ne hi ..
    · rfl
  funext i
  fin_cases i
  · cases hsys : sys with
    | true => rfl
    | false =>
      rw [hsys] at hframe
      exact congrArg TrapFrame.eax hframe
  · exact (congrArg TrapFrame.ecx hframe).trans (hother rECX (by decide)).symm
  · exact (congrArg TrapFrame.edx hframe).trans (hother rEDX (by decide)).symm
  · exact (congrArg TrapFrame.ebx hframe).trans (hother 3 (by decide)).symm
  · exact (hother rESP (by decide)).symm
  · exact (congrArg TrapFrame.ebp hframe).trans (hother rEBP (by decide)).symm
  · exact (congrArg TrapFrame.esi hframe).trans (hother rESI (by decide)).symm
  · exact (congrArg TrapFrame.edi hframe).trans (hother rEDI (by decide)).symm

omit [Bus P] [Ram P] hE in
/-- The other registers that `iret` leaves. -/
theorem iret_cpu {c' : CpuState} {selector : BitVec 16} {cache : SegDesc} {a b esp ip : Word} (t : TrapFrame)
    (h : c' = { (c.withCs selector cache).moved b ip with gpr := c'.gpr, eflags := c'.eflags, eip := c'.eip }) :
    ({ CpuState.withCs { c' with gpr := t.gpr a } (c.sreg 1).selector (c'.sreg 1).cache with
      eflags := c.eflags } : CpuState).moved esp c.eip =
    { c.withCs (c.sreg 1).selector cache with gpr := t.gpr esp } := by
  have hsreg : c'.sreg = Function.update c.sreg 1 ⟨selector, cache⟩ := by
    rw [h]
    rfl
  have hrest : c'.gdtr = c.gdtr ∧ c'.idtr = c.idtr ∧ c'.cr0 = c.cr0 ∧ c'.cr3 = c.cr3 := by
    rw [h]
    exact ⟨rfl, rfl, rfl, rfl⟩
  unfold CpuState.moved CpuState.withCs
  dsimp only
  rw [hsreg, hrest.1, hrest.2.1, hrest.2.2.1, hrest.2.2.2, Function.update_self, Function.update_idem,
    TrapFrame.update_gpr]

/-- **The way back.** -/
theorem leaveIrq_restored (hflat : m.cpu.Flat) (hinst : Installed no id vector entry handler m.cpu m.mem)
    (he : Entered id entry handler m m₁) (hh : Handled sys entry m₁ m₂) :
    Returns (fun _ => Restored sys m m₁ m₂) (leaveIrq (fuel + 1) m₂) E := by
  obtain ⟨selector, cache, hbase, hcpu₁⟩ := he.cpu
  obtain ⟨disp, hstub, -⟩ := hinst.stub
  have hesp₁ : m₁.reg .l rESP = m.reg .l rESP - 60 := by
    rw [Machine.reg, hcpu₁]
    exact CpuState.reg_moved
  have hesp₂ : m₂.cpu.gpr rESP = m.reg .l rESP - 60 := hh.esp.trans hesp₁
  have hflat₂ : m₂.cpu.Flat := by
    rw [hh.cpu, hcpu₁]
    exact hflat.withCs hbase
  -- what is executed is as it was before the interrupt
  have hleave : CodeAt (fun _ => False) m₂.mem (entry + 7)
      ([0x83, 0xc4, 4] ++ ([0x61] ++ ([0x83, 0xc4, 8] ++ [0xcf]))) := by
    intro i hi
    have hcode := hstub.right i hi
    have hin : In (entry + 7) 8 (entry + 7 + BitVec.ofNat 32 i) := by
      have hi8 : i < 8 := hi
      unfold In
      bv_omega
    exact ⟨(hh.stub _ hin).trans ((he.mem _ hcode.2).trans hcode.1), not_false⟩
  have haddress : peek m₂.mem (m.reg .l rESP - 60) 4 + 1 = entry + 7 := by
    have hsame : peek m₂.mem (m.reg .l rESP - 60) 4 = peek m₁.mem (m.reg .l rESP - 60) 4 :=
      peek_congr le_rfl fun x hx => hh.address x (hesp₁ ▸ hx)
    rw [hsame, he.address, show entry + 6 + 1 = entry + 7 from BitVec.add_assoc ..]
  have h₀ : Sim [] false (m₂.cpu.moved (m.reg .l rESP - 60) m₂.eip, m₂.mem) m₂ := by
    rw [← hesp₂, Machine.eip, CpuState.moved_self]
    exact ⟨rfl, Only.refl _ _, rfl, hh.size⟩
  have hret : CodeAt (fun _ => False) m₂.mem m₂.eip [0xc3] := by
    intro i hi
    obtain rfl : i = 0 := Nat.lt_one_iff.mp hi
    exact ⟨(congrArg m₂.mem (BitVec.add_zero _)).trans hh.ret, not_false⟩
  unfold leaveIrq
  refine (ret_step hret hflat₂ h₀).bind fun _ m₃ h₃ => ?_
  have h56 : m.reg .l rESP - 60 + 4 = m.reg .l rESP - 56 := by bv_omega
  rw [haddress, h56] at h₃
  refine (addEsp_step hleave.left hflat₂ (h₃.mono (List.nil_subset _))).bind fun _ m₄ h₄ => ?_
  have h4 : BitVec.signExtend 32 (4 : Byte) = (4 : Word) := by decide
  have h52 : m.reg .l rESP - 56 + 4 = m.reg .l rESP - 52 := by bv_omega
  rw [h4, h52] at h₄
  refine (popa_step hleave.right.left hflat₂ h₄).bind fun _ m₅ h₅ => ?_
  have h20 : m.reg .l rESP - 52 + 4 + 4 + 4 + 4 + 4 + 4 + 4 + 4 = m.reg .l rESP - 20 := by bv_omega
  have hflat₃ : (popaRegs m₂.cpu m₂.mem (m.reg .l rESP - 52)).Flat := by
    rw [popaRegs_eq]
    exact hflat₂
  rw [h20] at h₅
  refine (addEsp_step hleave.right.right.left hflat₃ h₅).bind fun _ m₆ h₆ => ?_
  have h8 : BitVec.signExtend 32 (8 : Byte) = (8 : Word) := by decide
  have h12 : m.reg .l rESP - 20 + 8 = m.reg .l rESP - 12 := by bv_omega
  rw [h8, h12] at h₆
  refine (iret_step hleave.right.right.right hflat₃ h₆).mono fun _ m₇ h₇ => ?_
  -- what is popped is the frame
  have hframe := (hh.frame_eq he).trans (by rw [he.frame])
  have heip : peek m₂.mem (m.reg .l rESP - 12) 4 = m.eip := by
    rw [show m.reg .l rESP - 12 = m.reg .l rESP - 52 + 40 by bv_omega]
    exact congrArg TrapFrame.eip hframe
  have hcs : peek m₂.mem (m.reg .l rESP - 12 + 4) 4 = (m.cpu.sreg 1).selector.setWidth 32 := by
    rw [show m.reg .l rESP - 12 + 4 = m.reg .l rESP - 52 + 44 by bv_omega]
    exact congrArg TrapFrame.cs hframe
  have heflags : peek m₂.mem (m.reg .l rESP - 12 + 4 + 4) 4 = m.cpu.eflags := by
    rw [show m.reg .l rESP - 12 + 4 + 4 = m.reg .l rESP - 52 + 48 by bv_omega]
    exact congrArg TrapFrame.eflags hframe
  have hesp : m.reg .l rESP - 12 + 4 + 4 + 4 = m.reg .l rESP := by bv_omega
  rw [heip, hcs, heflags, hesp, BitVec.setWidth_setWidth_of_le _ (by decide), BitVec.setWidth_eq] at h₇
  refine ⟨⟨cache, hbase, ?_⟩, h₇.mem, fun x hx hkept => ?_⟩
  · have hcpu := h₇.cpu_eq
    rw [popaRegs_eq] at hcpu
    rw [← hh.gpr_eq he, hcpu]
    exact iret_cpu _ (hh.cpu.trans (by rw [hcpu₁]))
  · rw [h₇.mem]
    exact hkept.trans (he.mem x hx)

/-- An interrupt with this body of `irq_handle`: the machine when the body starts, and
when it ends. -/
def interrupt (no : Byte) (fuel : ℕ) (body : Cmd (Machine P) Unit) : Cmd (Machine P) (Machine P × Machine P) := do
  enterIrq no fuel
  let m₁ ← read fun m => m
  body
  let m₂ ← read fun m => m
  leaveIrq fuel
  return (m₁, m₂)

/-- **An interrupt is transparent**: `irq_handle` finds the registers in its frame, and
the interrupted program gets them back. -/
theorem interrupt_transparent {body : Cmd (Machine P) Unit} (hflat : m.cpu.Flat)
    (hsize : m.ops.isOperandSize16 = false) (hinst : Installed no id vector entry handler m.cpu m.mem)
    (hbody : ∀ m₁, Entered id entry handler m m₁ → Returns (fun _ => Handled sys entry m₁) (body m₁) E) :
    Returns (fun r m' => Entered id entry handler m r.1 ∧ Handled sys entry r.1 r.2 ∧ Restored sys m r.1 r.2 m')
      (interrupt no (fuel + 1) body m) E := by
  have henter : Returns (fun _ => Entered id entry handler m) (enterIrq no (fuel + 1) m) E :=
    enterIrq_entered hflat hsize hinst
  unfold interrupt
  refine henter.bind fun _ m₁ he => ?_
  rw [read_bind_run]
  refine (hbody m₁ he).bind fun _ m₂ hh => ?_
  rw [read_bind_run]
  have hleave : Returns (fun _ => Restored sys m m₁ m₂) (leaveIrq (fuel + 1) m₂) E :=
    leaveIrq_restored hflat hinst he hh
  refine hleave.bind fun _ m' hr => ?_
  exact ⟨he, hh, hr⟩

end Trap

/-! ### An interrupt on the test machine -/

/-- The gate of vector 1 at 8, the code segment of selector 8 at 0x18, the vector at
0x20, `asm_do_irq` at 0x26 and an `irq_handle` that returns at once at 0x35. -/
def irqMachine : Machine FlatBus :=
  let m := flatMachine (fun i => 0x100 + BitVec.ofNat 32 i.val) (List.replicate 8 0 ++ (setIntr 8 0x20 0).bytes ++
    List.replicate 8 0 ++ (codeSegment 0).bytes ++ [0x6a, 0, 0x6a, 0x20, 0xeb, 0] ++ enterCode 8 ++ leaveCode ++ [0xc3])
  { m with cpu := { m.cpu with gdtr := ⟨0x17, 0x10⟩, cr0 := 1 } }

theorem installed_irqMachine : Installed 1 0x20 0x20 0x26 0x35 irqMachine.cpu irqMachine.mem where
  gate := ⟨0xe, 8, 0, codeSegment 0, by decide +kernel, by decide +kernel, by decide⟩
  vectorCode := ⟨[0x6a, 0], [0x6a, 0x20], [0xeb, 0], 0, .byte 0 (by decide), .byte 0x20 (by decide),
    .byte 0 (by decide), by decide +kernel, by decide⟩
  stub := ⟨8, by decide +kernel, by decide⟩

theorem flat_irqMachine : irqMachine.cpu.Flat := by
  intro addr i _
  have hbase : (irqMachine.cpu.sreg i).cache.base = 0 := by
    rw [show irqMachine.cpu.sreg i = ⟨0, ⟨0, 0, 0, 0, 0⟩⟩ from rfl]
    decide
  rw [CpuState.linear, hbase, show addr + 0 = addr from BitVec.add_zero addr, ite_self]

theorem interrupt_transparent_irqMachine : ∃ r m', interrupt 1 1 (pure ()) irqMachine = .ok r m' ∧
    Entered 0x20 0x26 0x35 irqMachine r.1 ∧ Handled true 0x26 r.1 r.2 ∧ Restored true irqMachine r.1 r.2 m' := by
  -- for every bus, so that the run is not unfolded
  have hall : ∀ (P : Type) [Bus P] [Ram P] [Accesses P fun _ => False] (m : Machine P), m.cpu.Flat →
      m.ops.isOperandSize16 = false → Installed 1 0x20 0x20 0x26 0x35 m.cpu m.mem →
      ¬ m.cpu.below 0x35 ∧ m.mem 0x35 = 0xc3 → ∃ r m', interrupt 1 1 (pure ()) m = .ok r m' ∧
        Entered 0x20 0x26 0x35 m r.1 ∧ Handled true 0x26 r.1 r.2 ∧ Restored true m r.1 r.2 m' := by
    intro P _ _ _ m hflat hsize hinst hcode
    have hbody : ∀ m₁ : Machine P, Entered 0x20 0x26 0x35 m m₁ →
        Returns (fun _ => Handled true 0x26 m₁) ((pure () : Cmd (Machine P) Unit) m₁) fun _ => False := by
      intro m₁ he
      obtain ⟨selector, cache, -, hcpu⟩ := he.cpu
      have heip : m₁.eip = 0x35 := congrArg CpuState.eip hcpu
      have hret : m₁.mem m₁.eip = 0xc3 := by
        rw [heip, he.mem _ hcode.1]
        exact hcode.2
      exact ⟨rfl, rfl, he.size, hret, fun _ _ => rfl, fun _ _ _ => rfl, fun _ _ => rfl⟩
    exact (interrupt_transparent hflat hsize hinst hbody).exists_ok
  exact hall FlatBus irqMachine flat_irqMachine rfl installed_irqMachine (by decide +kernel)

/-- `old_esp` is not the stack pointer of the interrupted program. -/
theorem oldEsp_wrong : irqMachine.cpu.Flat ∧ Installed 1 0x20 0x20 0x26 0x35 irqMachine.cpu irqMachine.mem ∧
    ∃ m₁, enterIrq 1 1 irqMachine = .ok () m₁ ∧
      (TrapFrame.load m₁.mem (irqMachine.reg .l rESP - 52)).oldEsp ≠ irqMachine.reg .l rESP := by
  have hall : ∀ (P : Type) [Bus P] [Ram P] [Accesses P fun _ => False] (m : Machine P), m.cpu.Flat →
      m.ops.isOperandSize16 = false → Installed 1 0x20 0x20 0x26 0x35 m.cpu m.mem →
      ∃ (r : Unit) (m₁ : Machine P), enterIrq 1 1 m = .ok r m₁ ∧ Entered 0x20 0x26 0x35 m m₁ :=
    fun _ _ _ _ _ hflat hsize hinst => (enterIrq_entered hflat hsize hinst).exists_ok
  obtain ⟨_, m₁, hrun, he⟩ := hall FlatBus irqMachine flat_irqMachine rfl installed_irqMachine
  refine ⟨flat_irqMachine, installed_irqMachine, m₁, hrun, ?_⟩
  rw [he.frame]
  decide +kernel

end Nemu
