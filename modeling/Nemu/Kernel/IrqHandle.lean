/-
# Interrupt handlers of the kernel

`irq_handle.c`: a pool of 32 entries, linked into one list of handlers for each
of 16 interrupt lines. `add_irq_handle` takes the next entry of the pool and
puts it at the head of the list of its line, `irq_handle` calls the handlers of
a line in the order of its list. Nothing is ever taken out.

The assertions of `add_irq_handle` let through a negative line and, with a full
pool, one more entry than there is. What the other system calls do (`sys_brk`,
`sys_ioctl`, `sys_write`) is a parameter, as is what a handler does to the rest
of the kernel.

Key definitions: `IrqTable`, `addIrqHandle`, `doSyscall`, `irqHandle`,
`registered`, `Handled`.
Key theorems: `addIrqHandle_ok`, `callHandlers_seg`, `handled_iff`.
-/
import Nemu.Lib.Bytes
import Nemu.Lib.Chain
import Mathlib.Logic.Function.Basic

namespace Nemu

open Bytes

namespace Irq

/-- How the code stops: by an assertion or `panic`, at an index outside its
table, or not at all. -/
inductive Stop where
  | panic
  | bounds
  | spins
  deriving DecidableEq

/-- `handle_pool`, `handles` and `handle_count`; a pointer into the pool is an
index. -/
structure IrqTable where
  routine : Fin 32 → Word
  next : Fin 32 → Option (Fin 32)
  handles : Fin 16 → Option (Fin 32)
  count : ℤ

/-- Before the first call. -/
def initTable : IrqTable := ⟨fun _ => 0, fun _ => none, fun _ => none, 0⟩

/-- `add_irq_handle`. -/
def addIrqHandle (irq : ℤ) (func : Word) (s : IrqTable) : Except Stop IrqTable :=
  if irq < 16 then
    if s.count ≤ 32 then
      if hptr : 0 ≤ s.count ∧ s.count < 32 then
        if hirq : 0 ≤ irq ∧ irq < 16 then
          let ptr : Fin 32 := ⟨s.count.toNat, by omega⟩
          let line : Fin 16 := ⟨irq.toNat, by omega⟩
          .ok {
            routine := Function.update s.routine ptr func
            next := Function.update s.next ptr (s.handles line)
            handles := Function.update s.handles line (some ptr)
            count := s.count + 1 }
        else .error .bounds
      else .error .bounds
    else .error .panic
  else .error .panic

/-- The fields of `TrapFrame` that are looked at here. -/
structure TrapFrame where
  ebx : Word
  ecx : Word
  eax : Word
  irq : ℤ

/-- The tables, the interrupt flag and the rest of the kernel. -/
structure Kernel (σ : Type) where
  table : IrqTable
  intr : Bool
  rest : σ

section Dispatch

variable {σ : Type} (sys : Word → σ → σ) (call : Word → σ → σ)

/-- `do_syscall`. -/
def doSyscall (tf : TrapFrame) (k : Kernel σ) : Except Stop (Kernel σ) :=
  if tf.eax = 0 then do
    let k := { k with intr := false }
    let table ← addIrqHandle tf.ebx.toInt tf.ecx k.table
    return { k with table := table, intr := true }
  else if tf.eax = 45 ∨ tf.eax = 54 ∨ tf.eax = 4 then .ok { k with rest := sys tf.eax k.rest }
  else .error .panic

/-- `while (f != NULL)`; `none` when the steps are used up. -/
def callHandlers (s : IrqTable) : ℕ → Option (Fin 32) → σ → Option σ
  | _, none, x => some x
  | 0, some _, _ => none
  | fuel + 1, some f, x => callHandlers s fuel (s.next f) (call (s.routine f) x)

/-- `irq_handle`, with more steps than the pool has entries. -/
def irqHandle (tf : TrapFrame) (k : Kernel σ) : Except Stop (Kernel σ) :=
  if tf.irq < 0 then .error .panic
  else if tf.irq = 0x80 then doSyscall sys tf k
  else if tf.irq < 1000 then .error .panic
  else
    let irqId := tf.irq - 1000
    if irqId < 16 then
      if h : 0 ≤ irqId ∧ irqId < 16 then
        match callHandlers call k.table 33 (k.table.handles ⟨irqId.toNat, by omega⟩) k.rest with
        | some x => .ok { k with rest := x }
        | none => .error .spins
      else .error .bounds
    else .error .panic

/-- System call 0 is `add_irq_handle` of the arguments in `ebx` and `ecx`. -/
theorem irqHandle_syscall {tf : TrapFrame} (hirq : tf.irq = 0x80) (heax : tf.eax = 0) (k : Kernel σ) :
    irqHandle sys call tf k = (addIrqHandle tf.ebx.toInt tf.ecx k.table).map fun table =>
      { k with table := table, intr := true } := by
  unfold irqHandle doSyscall
  rw [if_neg (by omega), if_pos hirq, if_pos heax]
  dsimp only
  cases addIrqHandle tf.ebx.toInt tf.ecx k.table <;> rfl

end Dispatch

/-! ### Registrations -/

/-- Calls of `add_irq_handle`, one after the other. -/
def addAll : List (ℤ × Word) → IrqTable → Except Stop IrqTable
  | [], s => .ok s
  | c :: calls, s => do
    let s ← addIrqHandle c.1 c.2 s
    addAll calls s

/-- The routines that the calls register for a line, the last one first. -/
def registered (calls : List (ℤ × Word)) (irq : ℤ) : List Word :=
  ((calls.filter fun c => c.1 = irq).map Prod.snd).reverse

/-- The calls stay within the tables or are stopped by an assertion, and if none
fails, an interrupt of any line calls the routines registered for it, the last
one first, and comes to its end. -/
def Handled (calls : List (ℤ × Word)) : Prop :=
  match addAll calls initTable with
  | .ok s => ∀ (σ : Type) (sys call : Word → σ → σ) (tf : TrapFrame) (intr : Bool) (x : σ),
      1000 ≤ tf.irq → tf.irq < 1016 → irqHandle sys call tf ⟨s, intr, x⟩ =
        .ok ⟨s, intr, (registered calls (tf.irq - 1000)).foldl (fun x f => call f x) x⟩
  | .error stop => stop = .panic

section Table

variable {s : IrqTable} {calls : List (ℤ × Word)} {irq : ℤ} {func : Word}

@[simp] theorem registered_nil (irq : ℤ) : registered [] irq = [] := rfl

theorem registered_concat (calls : List (ℤ × Word)) (c : ℤ × Word) (irq : ℤ) :
    registered (calls ++ [c]) irq =
      if c.1 = irq then c.2 :: registered calls irq else registered calls irq := by
  unfold registered
  by_cases h : c.1 = irq <;> simp [h]

theorem registered_length (calls : List (ℤ × Word)) (irq : ℤ) :
    (registered calls irq).length ≤ calls.length := by
  unfold registered
  rw [List.length_reverse, List.length_map]
  apply List.length_filter_le

/-- The tables after the calls: as many entries are taken, and from the head of
each line one passes entries with the routines registered for it. -/
structure Registered (calls : List (ℤ × Word)) (s : IrqTable) : Prop where
  count : s.count = calls.length
  line : ∀ i : Fin 16, ∃ l : List (Fin 32), Seg s.next (s.handles i) l none ∧
    l.map s.routine = registered calls i.val ∧ ∀ p ∈ l, p.val < calls.length

theorem registered_init : Registered [] initTable where
  count := rfl
  line _ := ⟨[], rfl, rfl, fun _ hp => (List.not_mem_nil hp).elim⟩

/-- **A call within bounds** puts its routine at the head of its line. -/
theorem addIrqHandle_ok (h : Registered calls s) (hlen : calls.length < 32) (h0 : 0 ≤ irq)
    (h16 : irq < 16) (func : Word) :
    ∃ s', addIrqHandle irq func s = .ok s' ∧ Registered (calls ++ [(irq, func)]) s' := by
  have hcount : 0 ≤ s.count ∧ s.count < 32 := by
    rw [h.count]
    omega
  unfold addIrqHandle
  rw [if_pos h16, if_pos (by omega), dif_pos hcount, dif_pos ⟨h0, h16⟩]
  refine ⟨_, rfl, ?_, fun i => ?_⟩
  · simp [h.count]
  · dsimp only
    obtain ⟨l, hseg, hmap, hlt⟩ := h.line i
    -- the entry that is taken is on no list
    have hne : ∀ p ∈ l, p ≠ ⟨s.count.toNat, by omega⟩ := by
      intro p hp he
      have hval : p.val = s.count.toNat := congrArg Fin.val he
      have := hlt p hp
      have := h.count
      omega
    have hseg' : Seg (Function.update s.next ⟨s.count.toNat, by omega⟩ (s.handles ⟨irq.toNat, by omega⟩))
        (s.handles i) l none := hseg.congr fun p hp => Function.update_of_ne (hne p hp) ..
    have hmap' : l.map (Function.update s.routine ⟨s.count.toNat, by omega⟩ func) = registered calls i.val := by
      rw [← hmap]
      exact List.map_congr_left fun p hp => Function.update_of_ne (hne p hp) ..
    have hlen' : (calls ++ [(irq, func)]).length = calls.length + 1 := by simp
    rw [registered_concat]
    by_cases hi : irq = i.val
    · have hline : (⟨irq.toNat, by omega⟩ : Fin 16) = i := by
        apply Fin.ext
        change irq.toNat = i.val
        omega
      rw [hline] at hseg' ⊢
      refine ⟨⟨s.count.toNat, by omega⟩ :: l, ?_, ?_, ?_⟩
      · rw [Function.update_self]
        refine ⟨rfl, ?_⟩
        rw [Function.update_self]
        exact hseg'
      · rw [if_pos hi, List.map_cons, Function.update_self, hmap']
      · simp only [List.mem_cons, forall_eq_or_imp]
        have := h.count
        exact ⟨by omega, fun p hp => by have := hlt p hp; omega⟩
    · have hline : i ≠ ⟨irq.toNat, by omega⟩ := by
        rintro rfl
        apply hi
        exact (Int.toNat_of_nonneg h0).symm
      rw [Function.update_of_ne hline, if_neg hi]
      exact ⟨l, hseg', hmap', fun p hp => by have := hlt p hp; omega⟩

/-- A line that is too high is rejected. -/
theorem addIrqHandle_panic (h16 : ¬ irq < 16) : addIrqHandle irq func s = .error .panic := if_neg h16

/-- A negative line, or one more call than there are entries, is not. -/
theorem addIrqHandle_bounds (h16 : irq < 16) (hcount : 0 ≤ s.count ∧ s.count ≤ 32)
    (hbad : irq < 0 ∨ s.count = 32) : addIrqHandle irq func s = .error .bounds := by
  unfold addIrqHandle
  rw [if_pos h16, if_pos hcount.2]
  rcases hbad with hneg | hfull
  · split_ifs with hptr hirq
    · omega
    · rfl
    · rfl
  · rw [dif_neg (by omega)]

/-! ### Dispatch -/

/-- The loop calls the routines along a list. -/
theorem callHandlers_seg {σ : Type} (call : Word → σ → σ) : ∀ {l : List (Fin 32)} {fuel : ℕ}
    {p : Option (Fin 32)} {x : σ}, Seg s.next p l none → l.length ≤ fuel →
    callHandlers call s fuel p x = some ((l.map s.routine).foldl (fun x f => call f x) x)
  | [], fuel, p, x, hseg, _ => by
    obtain rfl : p = none := hseg
    cases fuel <;> rfl
  | f :: l, fuel, p, x, hseg, hfuel => by
    obtain ⟨rfl, hrest⟩ := hseg
    rw [List.length_cons] at hfuel
    obtain ⟨fuel, rfl⟩ : ∃ n, fuel = n + 1 := ⟨fuel - 1, by omega⟩
    exact callHandlers_seg (l := l) call hrest (by omega)

/-- **An interrupt** calls the routines registered for its line. -/
theorem irqHandle_calls {σ : Type} (h : Registered calls s) (hlen : calls.length ≤ 32)
    (sys call : Word → σ → σ) {tf : TrapFrame} (hlow : 1000 ≤ tf.irq) (hhigh : tf.irq < 1016)
    (intr : Bool) (x : σ) : irqHandle sys call tf ⟨s, intr, x⟩ =
      .ok ⟨s, intr, (registered calls (tf.irq - 1000)).foldl (fun x f => call f x) x⟩ := by
  have hid : 0 ≤ tf.irq - 1000 ∧ tf.irq - 1000 < 16 := by omega
  obtain ⟨l, hseg, hmap, -⟩ := h.line ⟨(tf.irq - 1000).toNat, by omega⟩
  rw [Int.toNat_of_nonneg hid.1] at hmap
  have hl : l.length ≤ 33 := by
    have hle := registered_length calls (tf.irq - 1000)
    rw [← hmap, List.length_map] at hle
    omega
  have hrun := callHandlers_seg call (x := x) hseg hl
  rw [hmap] at hrun
  unfold irqHandle
  rw [if_neg (by omega), if_neg (by omega), if_neg (by omega)]
  dsimp only
  rw [if_pos hid.2, dif_pos hid, hrun]

end Table

/-! ### Runs -/

/-- The calls before the first one that is rejected for its line. -/
def accepted (calls : List (ℤ × Word)) : List (ℤ × Word) := calls.takeWhile fun c => c.1 < 16

section Runs

/-- A run of calls from the tables after some. -/
theorem addAll_cases : ∀ (calls : List (ℤ × Word)) {pre : List (ℤ × Word)} {s : IrqTable},
    Registered pre s → pre.length ≤ 32 →
    (pre.length + (accepted calls).length ≤ 32 ∧ (∀ c ∈ accepted calls, 0 ≤ c.1) ∧
      ((∃ s', addAll calls s = .ok s' ∧ Registered (pre ++ calls) s' ∧ accepted calls = calls) ∨
        addAll calls s = .error .panic)) ∨
    (¬ (pre.length + (accepted calls).length ≤ 32 ∧ ∀ c ∈ accepted calls, 0 ≤ c.1) ∧
      addAll calls s = .error .bounds)
  | [], pre, s, h, hpre => by
    refine .inl ⟨hpre, fun c hc => (List.not_mem_nil hc).elim, .inl ⟨s, rfl, ?_, rfl⟩⟩
    rw [List.append_nil]
    exact h
  | c :: calls, pre, s, h, hpre => by
    by_cases h16 : c.1 < 16
    · have hacc : accepted (c :: calls) = c :: accepted calls := List.takeWhile_cons_of_pos (by simpa using h16)
      by_cases hgood : 0 ≤ c.1 ∧ pre.length < 32
      · obtain ⟨s', hadd, hs'⟩ := addIrqHandle_ok h hgood.2 hgood.1 h16 c.2
        have hlen : (pre ++ [(c.1, c.2)]).length = pre.length + 1 := by simp
        have hrun : addAll (c :: calls) s = addAll calls s' := by
          rw [addAll, hadd]
          rfl
        rw [hrun, hacc]
        simp only [List.length_cons, List.mem_cons, forall_eq_or_imp]
        rcases addAll_cases calls hs' (by omega) with ⟨hle, hnn, hend⟩ | ⟨hbad, hend⟩
        · refine .inl ⟨by omega, ⟨hgood.1, hnn⟩, hend.imp_left ?_⟩
          rintro ⟨t, ht, hreg, heq⟩
          refine ⟨t, ht, ?_, by rw [heq]⟩
          rw [List.append_cons]
          exact hreg
        · refine .inr ⟨fun hall => hbad ⟨by omega, hall.2.2⟩, hend⟩
      · refine .inr ⟨fun hall => hgood ?_, ?_⟩
        · rw [hacc, List.length_cons] at hall
          exact ⟨hall.2 c (List.mem_cons_self ..), by omega⟩
        · have hcount := h.count
          rw [addAll, addIrqHandle_bounds h16 (by omega) (by omega)]
          rfl
    · have hacc : accepted (c :: calls) = [] := List.takeWhile_cons_of_neg (by simpa using h16)
      rw [hacc]
      refine .inl ⟨hpre, fun c hc => (List.not_mem_nil hc).elim, .inr ?_⟩
      rw [addAll, addIrqHandle_panic h16]
      rfl

/-- **Registration and dispatch.** The tables are kept to, and the interrupts of
every line handled by what was registered for it, if and only if of the calls
before the first that is rejected for its line there are at most 32, none of
them for a negative line. -/
theorem handled_iff (calls : List (ℤ × Word)) :
    Handled calls ↔ (accepted calls).length ≤ 32 ∧ ∀ c ∈ accepted calls, 0 ≤ c.1 := by
  have hcases := addAll_cases calls registered_init (by decide)
  rw [List.length_nil, Nat.zero_add, List.nil_append] at hcases
  unfold Handled
  rcases hcases with ⟨hle, hnn, ⟨s, hrun, hreg, hall⟩ | hrun⟩ | ⟨hbad, hrun⟩
  · rw [hall] at hle hnn
    rw [hrun, hall]
    refine ⟨fun _ => ⟨hle, hnn⟩, fun _ σ sys call tf intr x hlow hhigh => ?_⟩
    exact irqHandle_calls hreg hle sys call hlow hhigh intr x
  · rw [hrun]
    exact ⟨fun _ => ⟨hle, hnn⟩, fun _ => rfl⟩
  · rw [hrun]
    exact ⟨fun h => (Stop.noConfusion h), fun h => (hbad h).elim⟩

/-- A negative line reads and writes before the table, and of 33 calls for the
timer the last one takes an entry after the pool. -/
theorem addAll_out_of_bounds : addAll [(-1, 0x100000)] initTable = .error .bounds ∧
    addAll (List.replicate 33 (0, 0x100000)) initTable = .error .bounds ∧
      ¬ Handled [(-1, 0x100000)] ∧ ¬ Handled (List.replicate 33 (0, 0x100000)) := by
  have hneg : addAll [(-1, 0x100000)] initTable = .error .bounds := rfl
  have hfull : addAll (List.replicate 33 (0, 0x100000)) initTable = .error .bounds := by
    rcases addAll_cases (List.replicate 33 (0, 0x100000)) registered_init (by decide) with
      ⟨hle, -⟩ | ⟨-, hrun⟩
    · have hacc : (accepted (List.replicate 33 (0, (0x100000 : Word)))).length = 33 := by decide
      rw [hacc] at hle
      exact absurd hle (by decide)
    · exact hrun
  refine ⟨hneg, hfull, fun h => ?_, fun h => ?_⟩
  · unfold Handled at h
    rw [hneg] at h
    exact Stop.noConfusion h
  · unfold Handled at h
    rw [hfull] at h
    exact Stop.noConfusion h

end Runs

end Irq

end Nemu
