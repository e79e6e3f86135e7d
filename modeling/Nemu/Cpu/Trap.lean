/-
# The instructions around an interrupt

What a vector of `do_irq.S` and `asm_do_irq` execute: the pushes and the jump of the
vector, `pushal`, `pushl %esp` and the call of `irq_handle`; and on the way back its
`ret`, `addl`, `popal` and `iret`. Each is one step of the processor and of memory.

Key definitions: `PushCode`, `JmpCode`, `pushaWords`, `popaRegs`.
Key theorems: `push_step`, `jmp_step`, `pusha_step`, `pushEsp_step`, `call_step`,
`ret_step`, `addEsp_step`, `popa_step`, `iret_step`.
-/
import Nemu.Cpu.Stack
import Nemu.Cpu.Vectoring

namespace Nemu

open Bytes Cmd Instr WordMem

set_option synthInstance.maxSize 10000

/-! ### Encodings -/

/-- The encodings of `pushl $v`. -/
inductive PushCode (v : Word) : List Byte → Prop
  | byte (b : Byte) (h : b.signExtend 32 = v) : PushCode v [0x6a, b]
  | word : PushCode v (0x68 :: immediate v)

/-- The encodings of a jump by `disp`. -/
inductive JmpCode (disp : Word) : List Byte → Prop
  | byte (b : Byte) (h : b.signExtend 32 = disp) : JmpCode disp [0xeb, b]
  | word : JmpCode disp (0xe9 :: immediate disp)

/-! ### The processor on the way -/

namespace CpuState

variable {c : CpuState} {esp eip : Word}

theorem reg_moved_ne {i : Fin 8} (hi : i ≠ rESP) : (c.moved esp eip).reg .l i = c.gpr i :=
  Function.update_of_ne hi ..

theorem Flat.moved (h : c.Flat) : (c.moved esp eip).Flat := h

/-- A flat segment in `cs` too. -/
theorem Flat.withCs (h : c.Flat) {selector : BitVec 16} {cache : SegDesc} (hbase : cache.base = 0) :
    (c.withCs selector cache).Flat := by
  intro addr i hi
  by_cases h1 : i = 1
  · subst h1
    have hcs : (c.withCs selector cache).sreg 1 = Function.update c.sreg 1 ⟨selector, cache⟩ 1 := rfl
    unfold linear
    rw [hcs, Function.update_self, hbase, show addr + 0 = addr from BitVec.add_zero addr, ite_self]
  · have hne : (c.withCs selector cache).sreg i = c.sreg i := Function.update_of_ne h1 ..
    have hflat := h addr i hi
    unfold linear at hflat ⊢
    rw [hne]
    exact hflat

end CpuState

section Entry

variable {P : Type} [Bus P] [Ram P] {E : Failure → Prop} [hE : Accesses P E]
  {fs : List Flag} {b : Bool} {c : CpuState} {f : Mem} {s : CpuState × Mem} {t : Word × Mem} {ip : Word}
  {m : Machine P}

/-- A push, as the helpers do it. -/
theorem pushWord_sim {i : ℕ} (h : Sim fs b (c.moved t.1 ip, t.2) m) (hflat : c.Flat) (hi : i < 4)
    (v : Word) : Returns (fun _ m' =>
      Sim fs b (c.moved (pushWord t v).1 ip, (pushWord t v).2) m' ∧ m'.ops = m.ops)
      (swaddrWrite (m.reg .l rESP - 4) 4 v i (m.setReg .l rESP (m.reg .l rESP - 4))) E := by
  have hesp : m.reg .l rESP = t.1 := (h.reg .l rESP).trans CpuState.reg_moved
  have hset := h.setReg .l rESP (t.1 - 4)
  rw [CpuState.moved_setReg] at hset
  rw [hesp]
  refine (swaddrWrite_sim hset (by decide) hi _ v).mono fun _ m' hwrite => ?_
  have hi' : (Fin.ofNat 6 i).val < 4 := by rw [Fin.val_ofNat]; omega
  rw [hflat.moved _ _ hi'] at hwrite
  exact hwrite

/-! ### The instructions of the stub -/

/-- The next instruction. -/
theorem Sim.next {esp a v len : Word} (h : Sim fs b (c.moved esp a, f) m) (hv : a + len = v) :
    Sim fs b (c.moved esp v, f) (m.setEip (m.eip + len)) := by
  have heip : m.eip = a := h.eip
  rw [heip, hv]
  exact h.setEip v

/-- `push` with its operand in `val`. -/
theorem doPush_sim {d : Width} {v : Word} (h : Sim fs b (c.moved t.1 ip, t.2) m) (hflat : c.Flat)
    (hv : (if d = .b then Width.sext .b (m.val .src) else m.val .src) = v) :
    Returns (fun _ m' => Sim fs b (c.moved (pushWord t v).1 ip, (pushWord t v).2) m') (doPush d m) E := by
  unfold doPush
  rw [read_bind_run, write_bind_run, read_bind_run, write_bind_run, hv]
  have hval : Sim fs b (c.moved t.1 ip, t.2) (m.setVal .src v) := ⟨h.cpu, h.flags, h.mem, h.size⟩
  exact (pushWord_sim hval hflat (by decide) v).mono fun _ _ hdone => hdone.1

variable {S : Word → Prop} {code : List Byte} {fuel : ℕ} {v : Word}

/-- `pushl $v`. -/
theorem push_step (hcode : PushCode v code) (hat : CodeAt S t.2 ip code) (hflat : c.Flat)
    (h : Sim [] false (c.moved t.1 ip, t.2) m) :
    Returns (fun _ => Sim [] false (c.moved (pushWord t v).1 (ip + BitVec.ofNat 32 code.length),
      (pushWord t v).2)) (execStep (fuel + 1) m) E := by
  have hip : ∀ a, (c.moved t.1 ip).linear a 1 = a := fun a => hflat.moved a 1 (by decide)
  cases hcode with
  | byte k hk =>
    refine execStep_sim h ((congrArg t.2 (hip ip)).trans hat.head) fun m' hsim _ => ?_
    change Returns _ (opI doPush .b ip m') E
    refine (opI_sim hsim fun m₁ h₁ _ hval => doPush_sim (v := v) h₁ hflat ?_).mono fun len m₂ hdone => ?_
    · rw [if_pos rfl, hval, hip, ← hk]
      exact (congrArg (Width.sext .b) hat.tail.peek_one).trans (sext_byte k)
    · exact hdone.1.next (by rw [hdone.2]; rfl)
  | word =>
    refine execStep_sim h ((congrArg t.2 (hip ip)).trans hat.head) fun m' hsim _ => ?_
    change Returns _ (helperV (opI doPush) ip m') E
    refine helperV_sim hsim ?_
    refine (opI_sim hsim fun m₁ h₁ _ hval => doPush_sim (v := v) h₁ hflat ?_).mono fun len m₂ hdone => ?_
    · rw [if_neg (by decide), hval, hip]
      exact hat.tail.peek_immediate
    · exact hdone.1.next (by rw [hdone.2]; rfl)

/-- A jump. -/
theorem jmp_step {disp : Word} (hcode : JmpCode disp code) (hat : CodeAt S t.2 ip code) (hflat : c.Flat)
    (h : Sim [] false (c.moved t.1 ip, t.2) m) :
    Returns (fun _ => Sim [] false (c.moved t.1 (ip + BitVec.ofNat 32 code.length + disp), t.2))
      (execStep (fuel + 1) m) E := by
  have hip : ∀ a, (c.moved t.1 ip).linear a 1 = a := fun a => hflat.moved a 1 (by decide)
  have hjmp : ∀ {d : Width} {m₁ : Machine P}, Sim [] false (c.moved t.1 ip, t.2) m₁ →
      m₁.type .src = .imm → d.sext (m₁.val .src) = disp →
      Returns (fun _ => Sim [] false (c.moved t.1 (ip + disp), t.2)) (doJmp d m₁) E := by
    intro d m₁ h₁ htype hval
    unfold doJmp
    rw [read_bind_run, read_bind_run, read_bind_run, if_neg (by rw [htype]; decide), hval,
      show m₁.eip = ip from h₁.eip]
    exact h₁.setEip (ip + disp)
  cases hcode with
  | byte k hk =>
    refine execStep_sim h ((congrArg t.2 (hip ip)).trans hat.head) fun m' hsim _ => ?_
    change Returns _ (opI doJmp .b ip m') E
    refine (opI_sim hsim fun m₁ h₁ htype hval => hjmp h₁ htype ?_).mono fun len m₂ hdone => ?_
    · rw [hval, hip, ← hk]
      exact (congrArg (Width.sext .b) hat.tail.peek_one).trans (sext_byte k)
    · refine hdone.1.next ?_
      rw [hdone.2, BitVec.add_assoc, BitVec.add_comm disp, ← BitVec.add_assoc]
      rfl
  | word =>
    refine execStep_sim h ((congrArg t.2 (hip ip)).trans hat.head) fun m' hsim _ => ?_
    change Returns _ (helperV (opI doJmp) ip m') E
    refine helperV_sim hsim ?_
    refine (opI_sim hsim fun m₁ h₁ htype hval => hjmp h₁ htype ?_).mono fun len m₂ hdone => ?_
    · rw [hval, hip]
      exact (congrArg (Width.sext .l) hat.tail.peek_immediate).trans (by simp [Width.sext, Width.bits, Width.bytes])
    · refine hdone.1.next ?_
      rw [hdone.2, BitVec.add_assoc, BitVec.add_comm disp, ← BitVec.add_assoc]
      rfl

theorem pushReg_sim (v : Word) (h : Sim fs b (c.moved t.1 ip, t.2) m) (hflat : c.Flat) :
    Returns (fun _ => Sim fs b (c.moved (pushWord t v).1 ip, (pushWord t v).2)) (pushReg .l v m) E := by
  unfold pushReg
  rw [read_bind_run, write_bind_run, show Width.l.len = 4 from rfl]
  exact (pushWord_sim h hflat (by decide) v).mono fun _ _ hdone => hdone.1

/-- The words of `pushal`. -/
def pushaWords (c : CpuState) (esp : Word) : List Word :=
  [c.gpr rEAX, c.gpr rECX, c.gpr rEDX, c.gpr 3, esp, c.gpr rEBP, c.gpr rESI, c.gpr rEDI]

/-- `pushal`. -/
theorem pusha_step (hat : CodeAt S t.2 ip [0x60]) (hflat : c.Flat)
    (h : Sim [] false (c.moved t.1 ip, t.2) m) :
    Returns (fun _ => Sim [] false (c.moved (pushWords t (pushaWords c t.1)).1 (ip + 1),
      (pushWords t (pushaWords c t.1)).2)) (execStep (fuel + 1) m) E := by
  have hip : (c.moved t.1 ip).linear ip 1 = ip := hflat.moved ip 1 (by decide)
  have hreg : ∀ {t' : Word × Mem} {m' : Machine P} {i : Fin 8}, Sim [] false (c.moved t'.1 ip, t'.2) m' →
      i ≠ rESP → m'.reg .l i = c.gpr i := fun h hi => (h.reg .l _).trans (CpuState.reg_moved_ne hi)
  refine execStep_sim h ((congrArg t.2 hip).trans hat.head) fun m' h₀ _ => ?_
  change Returns _ (helperV pusha ip m') E
  refine helperV_sim h₀ ?_
  unfold pusha
  have hesp : m'.reg .l rESP = t.1 := (h₀.reg .l rESP).trans CpuState.reg_moved
  rw [read_bind_run, read_bind_run, hesp, hreg h₀ (by decide)]
  refine (pushReg_sim _ h₀ hflat).bind fun _ m₁ h₁ => ?_
  rw [read_bind_run, hreg h₁ (by decide)]
  refine (pushReg_sim _ h₁ hflat).bind fun _ m₂ h₂ => ?_
  rw [read_bind_run, hreg h₂ (by decide)]
  refine (pushReg_sim _ h₂ hflat).bind fun _ m₃ h₃ => ?_
  rw [read_bind_run, hreg h₃ (by decide)]
  refine (pushReg_sim _ h₃ hflat).bind fun _ m₄ h₄ => ?_
  refine (pushReg_sim _ h₄ hflat).bind fun _ m₅ h₅ => ?_
  rw [read_bind_run, hreg h₅ (by decide)]
  refine (pushReg_sim _ h₅ hflat).bind fun _ m₆ h₆ => ?_
  rw [read_bind_run, hreg h₆ (by decide)]
  refine (pushReg_sim _ h₆ hflat).bind fun _ m₇ h₇ => ?_
  rw [read_bind_run, hreg h₇ (by decide)]
  refine (pushReg_sim _ h₇ hflat).bind fun _ m₈ h₈ => ?_
  exact h₈.next rfl

/-- `pushl %esp`: the value before the push. -/
theorem pushEsp_step (hat : CodeAt S t.2 ip [0x54]) (hflat : c.Flat)
    (h : Sim [] false (c.moved t.1 ip, t.2) m) :
    Returns (fun _ => Sim [] false (c.moved (pushWord t t.1).1 (ip + 1), (pushWord t t.1).2))
      (execStep (fuel + 1) m) E := by
  have hip : (c.moved t.1 ip).linear ip 1 = ip := hflat.moved ip 1 (by decide)
  refine execStep_sim h ((congrArg t.2 hip).trans hat.head) fun m' hsim hopcode => ?_
  change Returns _ (helperV (opR doPush) ip m') E
  refine helperV_sim hsim ?_
  unfold opR idex
  refine (decodeR_sim .l hsim).bind fun len m₁ hdec => ?_
  obtain ⟨h₁, rfl, hval⟩ := hdec
  rw [hopcode, show bits02 ((0x54 : Byte).setWidth 32) = rESP by decide, CpuState.reg_moved] at hval
  refine (doPush_sim (v := t.1) h₁ hflat ?_).bind fun _ m₂ h₂ => ?_
  · rw [if_neg (by decide), hval]
  · exact h₂.next rfl

/-- `call rel32`: what is pushed is one less than the address of the next instruction. -/
theorem call_step {disp : Word} (hat : CodeAt S t.2 ip (0xe8 :: immediate disp)) (hflat : c.Flat)
    (h : Sim [] false (c.moved t.1 ip, t.2) m) :
    Returns (fun _ => Sim [] false (c.moved (pushWord t (ip + 4)).1 (ip + 5 + disp), (pushWord t (ip + 4)).2))
      (execStep (fuel + 1) m) E := by
  have hip : ∀ a, (c.moved t.1 ip).linear a 1 = a := fun a => hflat.moved a 1 (by decide)
  refine execStep_sim h ((congrArg t.2 (hip ip)).trans hat.head) fun m' hsim _ => ?_
  change Returns _ (helperV callI ip m') E
  refine helperV_sim hsim ?_
  unfold callI
  refine (decodeI_sim .l hsim).bind fun len m₁ hdec => ?_
  obtain ⟨h₁, rfl, -, -, hval⟩ := hdec
  rw [hip, show peek t.2 (ip + 1) Width.l.bytes = disp from hat.tail.peek_immediate] at hval
  rw [read_bind_run, read_bind_run, write_bind_run, show Width.l.len = 4 from rfl,
    show m₁.eip = ip from h₁.eip]
  refine (pushWord_sim h₁ hflat (by decide) (ip + 4)).bind fun _ m₂ hpush => ?_
  obtain ⟨h₂, hops⟩ := hpush
  have hval₂ : m₂.val .src = disp := by
    rw [← hval, Machine.val, Machine.operand, hops]
    rfl
  have hsext : Width.l.sext disp = disp := by simp [Width.sext, Width.bits, Width.bytes]
  rw [read_bind_run, write_bind_run, hval₂, hsext]
  refine (h₂.setEip (ip + disp)).next ?_
  rw [BitVec.add_assoc, BitVec.add_comm disp, ← BitVec.add_assoc]
  rfl

/-! ### The way back -/

/-- `ret` resumes one past the popped address. -/
theorem ret_step {g : Mem} {esp : Word} (hat : CodeAt S g ip [0xc3]) (hflat : c.Flat)
    (h : Sim [] false (c.moved esp ip, g) m) :
    Returns (fun _ => Sim [] false (c.moved (esp + 4) (peek g esp 4 + 1), g)) (execStep (fuel + 1) m) E := by
  have hip : ∀ a, (c.moved esp ip).linear a 1 = a := fun a => hflat.moved a 1 (by decide)
  refine execStep_sim h ((congrArg g (hip ip)).trans hat.head) fun m' hsim _ => ?_
  change Returns _ (helperV retO ip m') E
  refine helperV_sim hsim ?_
  unfold retO
  rw [read_bind_run, show m'.reg .l rESP = esp from (hsim.reg .l rESP).trans CpuState.reg_moved]
  refine (swaddrRead_sim hsim (by decide) (by decide) esp).bind fun v m₁ hread => ?_
  obtain ⟨h₁, -, hv⟩ := hread
  have hv' : v = peek g esp 4 := hv.trans (congrArg (peek g · 4) (hip esp))
  have hdone := (h₁.setEip v).setReg .l rESP (esp + 4)
  rw [write_bind_run, write_bind_run, show Width.l.len = 4 from rfl, ← hv']
  refine Sim.next (a := v) ?_ rfl
  rw [← CpuState.moved_setReg (a := esp)]
  exact hdone

/-- `addl $k, %esp`: the flags are lost. -/
theorem addEsp_step {g : Mem} {esp : Word} {k : Byte} (hat : CodeAt S g ip [0x83, 0xc4, k])
    (hflat : c.Flat) (h : Sim status false (c.moved esp ip, g) m) :
    Returns (fun _ => Sim status false (c.moved (esp + k.signExtend 32) (ip + 3), g))
      (execStep (fuel + 1) m) E := by
  have hip : ∀ a, (c.moved esp ip).linear a 1 = a := fun a => hflat.moved a 1 (by decide)
  have hmodrm : g ((c.moved esp ip).linear (ip + 1) 1) = fields 3 0 rESP :=
    (congrArg g (hip _)).trans hat.tail.head
  refine execStep_sim h ((congrArg g (hip ip)).trans hat.head) fun m' hsim _ => ?_
  refine group_sim hsim hmodrm fun m₁ h₁ => ?_
  change Returns _ (helperV (opSi2rm doAdd) ip m₁) E
  refine helperV_sim h₁ ?_
  unfold opSi2rm idex
  refine Returns.bind (decodeSi2rm_reg_sim .l h₁ hmodrm) fun len m₃ hdec => ?_
  obtain ⟨h₃, rfl, htype, hloc, hdest, hsrc⟩ := hdec
  rw [hip, show (c.moved esp ip, g).2 (ip + 1 + 1) = k from hat.tail.tail.head] at hsrc
  have hesp : m₃.val .dest = esp := hdest.trans CpuState.reg_moved
  have htrunc : Width.l.trunc (esp + k.signExtend 32) = esp + k.signExtend 32 :=
    Width.trunc_of_lt (esp + k.signExtend 32).isLt
  have hset := h₃.setReg .l rESP (esp + k.signExtend 32)
  rw [CpuState.moved_setReg] at hset
  have hadd : Returns (fun _ => Sim status false (c.moved (esp + k.signExtend 32) ip, g)) (doAdd .l m₃) E := by
    unfold doAdd
    rw [read_bind_run, read_bind_run, hesp, hsrc, htrunc, bind_ok (writeOperand_reg _ htype hloc)]
    exact setAddFlags_sim _ _ _ hset
  exact hadd.bind fun _ m₄ h₄ => h₄.next rfl

omit [Bus P] [Ram P] hE in
theorem moved_setReg_ne {esp v : Word} {i : Fin 8} (hi : i ≠ rESP) :
    (c.moved esp ip).setReg .l i v = (c.setReg .l i v).moved esp ip := by
  have hset : (c.moved esp ip).setReg .l i v =
      { c with gpr := Function.update (Function.update c.gpr rESP esp) i v, eip := ip } := rfl
  rw [hset, Function.update_comm hi.symm]
  rfl

theorem popReg_sim {g : Mem} {esp : Word} {i : Fin 8} (hi : i ≠ rESP) (hflat : c.Flat)
    (h : Sim fs b (c.moved esp ip, g) m) :
    Returns (fun _ => Sim fs b ((c.setReg .l i (peek g esp 4)).moved (esp + 4) ip, g)) (popReg .l i m) E := by
  have hesp : m.reg .l rESP = esp := (h.reg .l rESP).trans CpuState.reg_moved
  unfold popReg
  rw [read_bind_run, hesp]
  refine (swaddrRead_sim h (by decide) (by decide) esp).bind fun v m₁ hread => ?_
  obtain ⟨h₁, -, hv⟩ := hread
  have hv' : v = peek g esp 4 := hv.trans (congrArg (peek g · 4) (hflat.moved esp 2 (by decide)))
  subst hv'
  have h₂ := h₁.setReg .l i (peek g esp 4)
  rw [moved_setReg_ne hi] at h₂
  have hesp₂ : (m₁.setReg .l i (peek g esp 4)).reg .l rESP = esp := (h₂.reg .l rESP).trans CpuState.reg_moved
  rw [write_bind_run, read_bind_run, hesp₂, show Width.l.len = 4 from rfl]
  have h₃ := h₂.setReg .l rESP (esp + 4)
  rw [CpuState.moved_setReg] at h₃
  exact h₃

/-- The registers that `popal` takes from memory at `a`. -/
def popaRegs (c : CpuState) (g : Mem) (a : Word) : CpuState :=
  let c := c.setReg .l rEDI (peek g a 4)
  let c := c.setReg .l rESI (peek g (a + 4) 4)
  let c := c.setReg .l rEBP (peek g (a + 4 + 4) 4)
  let c := c.setReg .l 3 (peek g (a + 4 + 4 + 4 + 4) 4)
  let c := c.setReg .l rEDX (peek g (a + 4 + 4 + 4 + 4 + 4) 4)
  let c := c.setReg .l rECX (peek g (a + 4 + 4 + 4 + 4 + 4 + 4) 4)
  c.setReg .l rEAX (peek g (a + 4 + 4 + 4 + 4 + 4 + 4 + 4) 4)

/-- `popal`. -/
theorem popa_step {g : Mem} {esp : Word} (hat : CodeAt S g ip [0x61]) (hflat : c.Flat)
    (h : Sim fs false (c.moved esp ip, g) m) :
    Returns (fun _ => Sim fs false ((popaRegs c g esp).moved (esp + 4 + 4 + 4 + 4 + 4 + 4 + 4 + 4) (ip + 1), g))
      (execStep (fuel + 1) m) E := by
  have hip : (c.moved esp ip).linear ip 1 = ip := hflat.moved ip 1 (by decide)
  have hset : ∀ {c' : CpuState} (i : Fin 8) (v : Word), c'.Flat → (c'.setReg .l i v).Flat := fun i v hc a k hk => by
    rw [CpuState.linear_setReg]
    exact hc a k hk
  refine execStep_sim h ((congrArg g hip).trans hat.head) fun m' h₀ _ => ?_
  change Returns _ (helperV popa ip m') E
  refine helperV_sim h₀ ?_
  unfold popa
  refine (popReg_sim (by decide) hflat h₀).bind fun _ m₁ h₁ => ?_
  have hf₁ := hset rEDI (peek g esp 4) hflat
  refine (popReg_sim (by decide) hf₁ h₁).bind fun _ m₂ h₂ => ?_
  have hf₂ := hset rESI (peek g (esp + 4) 4) hf₁
  refine (popReg_sim (by decide) hf₂ h₂).bind fun _ m₃ h₃ => ?_
  have hf₃ := hset rEBP (peek g (esp + 4 + 4) 4) hf₂
  -- `old_esp` is skipped
  rw [read_bind_run, write_bind_run, show Width.l.len = 4 from rfl,
    show m₃.reg .l rESP = esp + 4 + 4 + 4 from (h₃.reg .l rESP).trans CpuState.reg_moved]
  have h₄ := h₃.setReg .l rESP (esp + 4 + 4 + 4 + 4)
  rw [CpuState.moved_setReg] at h₄
  refine (popReg_sim (by decide) hf₃ h₄).bind fun _ m₅ h₅ => ?_
  have hf₅ := hset 3 (peek g (esp + 4 + 4 + 4 + 4) 4) hf₃
  refine (popReg_sim (by decide) hf₅ h₅).bind fun _ m₆ h₆ => ?_
  have hf₆ := hset rEDX (peek g (esp + 4 + 4 + 4 + 4 + 4) 4) hf₅
  refine (popReg_sim (by decide) hf₆ h₆).bind fun _ m₇ h₇ => ?_
  have hf₇ := hset rECX (peek g (esp + 4 + 4 + 4 + 4 + 4 + 4) 4) hf₆
  refine (popReg_sim (by decide) hf₇ h₇).bind fun _ m₈ h₈ => ?_
  exact h₈.next rfl

/-- `iret`: `eip`, the selector of `cs` and `eflags`. -/
theorem iret_step {g : Mem} {esp : Word} (hat : CodeAt S g ip [0xcf]) (hflat : c.Flat)
    (h : Sim fs false (c.moved esp ip, g) m) :
    Returns (fun _ => Sim [] false
        (({ c.withCs ((peek g (esp + 4) 4).setWidth 16) (c.sreg 1).cache with
          eflags := peek g (esp + 4 + 4) 4 }).moved (esp + 4 + 4 + 4) (peek g esp 4), g))
      (execStep (fuel + 1) m) E := by
  have hip : (c.moved esp ip).linear ip 1 = ip := hflat.moved ip 1 (by decide)
  have hss : ∀ a, c.linear a 2 = a := fun a => hflat a 2 (by decide)
  refine execStep_sim h ((congrArg g hip).trans hat.head) fun m' h₀ _ => ?_
  change Returns _ (iret ip m') E
  unfold iret
  rw [read_bind_run, show m'.reg .l rESP = esp from (h₀.reg .l rESP).trans CpuState.reg_moved]
  refine (swaddrRead_sim h₀ (by decide) (by decide) esp).bind fun v₁ m₁ hread₁ => ?_
  obtain ⟨h₁, -, hv₁⟩ := hread₁
  obtain rfl : v₁ = peek g esp 4 := hv₁.trans (congrArg (peek g · 4) (hss esp))
  rw [write_bind_run, write_bind_run]
  have h₁' : Sim fs false (c.moved (esp + 4) (peek g esp 4), g)
      ((m₁.setEip (peek g esp 4)).setReg .l rESP (esp + 4)) := by
    rw [← CpuState.moved_setReg (a := esp)]
    exact (h₁.setEip (peek g esp 4)).setReg .l rESP (esp + 4)
  refine (swaddrRead_sim h₁' (by decide) (by decide) (esp + 4)).bind fun v₂ m₂ hread₂ => ?_
  obtain ⟨h₂, -, hv₂⟩ := hread₂
  obtain rfl : v₂ = peek g (esp + 4) 4 := hv₂.trans (congrArg (peek g · 4) (hss (esp + 4)))
  have hsel : m₂.setSelector 1 ((peek g (esp + 4) 4).setWidth 16) =
      m₂.setSreg 1 ⟨(peek g (esp + 4) 4).setWidth 16, (c.sreg 1).cache⟩ := by
    have hcache : (m₂.cpu.sreg 1).cache = (c.sreg 1).cache := by
      rw [h₂.cpu]
      rfl
    rw [← hcache]
    rfl
  rw [write_bind_run, write_bind_run, hsel]
  have h₂' : Sim fs false ((c.withCs ((peek g (esp + 4) 4).setWidth 16) (c.sreg 1).cache).moved
      (esp + 4 + 4) (peek g esp 4), g)
      ((m₂.setSreg 1 ⟨(peek g (esp + 4) 4).setWidth 16, (c.sreg 1).cache⟩).setReg .l rESP (esp + 4 + 4)) := by
    rw [← CpuState.moved_setReg (a := esp + 4)]
    exact (h₂.setSreg 1 _).setReg .l rESP (esp + 4 + 4)
  refine (swaddrRead_sim h₂' (by decide) (by decide) (esp + 4 + 4)).bind fun v₃ m₃ hread₃ => ?_
  obtain ⟨h₃, -, hv₃⟩ := hread₃
  obtain rfl : v₃ = peek g (esp + 4 + 4) 4 := hv₃.trans (congrArg (peek g · 4) (hss (esp + 4 + 4)))
  have h₄ := (h₃.setEflags (peek g (esp + 4 + 4) 4)).setReg .l rESP (esp + 4 + 4 + 4)
  rw [write_bind_run, write_bind_run]
  refine Sim.next (a := peek g esp 4) ?_ (BitVec.add_zero _)
  rw [← CpuState.moved_setReg (a := esp + 4 + 4)]
  exact h₄

end Entry

end Nemu
