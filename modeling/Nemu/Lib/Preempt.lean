/-
# Programs that an interrupt handler may preempt

A program is a tree of atomic actions. It runs alone (`run`), or under a
schedule that says before which actions a handler runs to completion
(`preempt`). `ok a s` says that the handler is allowed to run before action `a`
in state `s`; `wp` is the weakest precondition of a program under every
allowed schedule.

A stable assertion carries the proof over one action (`wp_act`), and over a
block of actions before which the handler does next to nothing the run alone
is enough (`wp_of_run`).

Key definitions: `Prog`, `run`, `preempt`, `Harmless`, `wp`.
Key theorems: `wp_bind`, `wp_act`, `wp_of_run`, `preempt_of_wp`,
`run_of_wp`, `exists_schedule`.
-/
import Mathlib.Data.Nat.Notation
import Mathlib.Tactic.Common

namespace Preempt

/-- A program over the actions `A`, where action `a` returns an `R a`. -/
inductive Prog (A : Type) (R : A → Type) (α : Type) : Type where
  | ret (a : α)
  | act (a : A) (k : R a → Prog A R α)

variable {A : Type} {R : A → Type} {α β σ ε : Type}

namespace Prog

def bind : Prog A R α → (α → Prog A R β) → Prog A R β
  | ret a, k => k a
  | act a f, k => act a fun r => (f r).bind k

instance : Monad (Prog A R) where
  pure := ret
  bind := bind

@[simp] theorem pure_eq (a : α) : (pure a : Prog A R α) = ret a := rfl

@[simp] theorem ret_bind (a : α) (k : α → Prog A R β) : (ret a : Prog A R α) >>= k = k a := rfl

@[simp] theorem act_bind (a : A) (f : R a → Prog A R α) (k : α → Prog A R β) :
    act a f >>= k = act a fun r => f r >>= k := rfl

theorem bind_assoc {γ : Type} : ∀ (p : Prog A R α) (k : α → Prog A R β) (l : β → Prog A R γ),
    (p >>= k) >>= l = p >>= fun a => k a >>= l
  | ret _, _, _ => rfl
  | act a f, k, l => congrArg (act a) (funext fun r => bind_assoc (f r) k l)

/-- One action. -/
def perform (a : A) : Prog A R (R a) := act a ret

@[simp] theorem perform_bind (a : A) (k : R a → Prog A R β) : perform a >>= k = act a k := rfl

/-- `body 0`, …, `body (n - 1)` in order. -/
def upto (body : ℕ → Prog A R Unit) : ℕ → Prog A R Unit
  | 0 => ret ()
  | n + 1 => do upto body n; body n

/-- Every action of the program satisfies `H`. -/
def All (H : A → Prop) : Prog A R α → Prop
  | ret _ => True
  | act a k => H a ∧ ∀ r, (k r).All H

theorem All.bind {H : A → Prop} : ∀ {p : Prog A R α} {k : α → Prog A R β},
    p.All H → (∀ a, (k a).All H) → (p >>= k).All H
  | ret a, _, _, hk => hk a
  | act _ _, _, hp, hk => ⟨hp.1, fun r => All.bind (hp.2 r) hk⟩

theorem All.upto {H : A → Prop} {body : ℕ → Prog A R Unit} (h : ∀ i, (body i).All H) (n : ℕ) :
    (upto body n).All H := by
  induction n with
  | zero => trivial
  | succ n ih => exact ih.bind fun _ => h n

end Prog

open Prog

section Semantics

variable (sem : (a : A) → σ → Except ε (R a × σ)) (h : σ → Except ε σ)

/-- The program alone. -/
def run : Prog A R α → σ → Except ε (α × σ)
  | ret a, s => .ok (a, s)
  | act a k, s => do
    let (r, s) ← sem a s
    run (k r) s

/-- The handler runs, or does not. -/
def tick (b : Bool) (s : σ) : Except ε σ := if b then h s else .ok s

/-- The program under a schedule: `t n` says that the handler runs before the
`n`-th action. -/
def preempt : Prog A R α → (ℕ → Bool) → σ → Except ε (α × (ℕ → Bool) × σ)
  | ret a, t, s => .ok (a, t, s)
  | act a k, t, s => do
    let s ← tick h (t 0) s
    let (r, s) ← sem a s
    preempt (k r) (fun n => t (n + 1)) s

theorem run_act {a : A} {k : R a → Prog A R α} {s s' : σ} {r : R a} (hs : sem a s = .ok (r, s')) :
    run sem (act a k) s = run sem (k r) s' := by
  rw [run, hs]
  rfl

theorem run_bind : ∀ {p : Prog A R α} {k : α → Prog A R β} {s s' : σ} {a : α},
    run sem p s = .ok (a, s') → run sem (p >>= k) s = run sem (k a) s'
  | ret a, k, s, s', b, hp => by
    obtain ⟨rfl, rfl⟩ := Prod.mk.inj (Except.ok.inj hp)
    rfl
  | act a f, k, s, s', b, hp => by
    rw [run] at hp
    cases hs : sem a s with
    | error e => rw [hs] at hp; nomatch hp
    | ok x =>
      obtain ⟨r, s1⟩ := x
      rw [hs] at hp
      rw [act_bind, run_act sem hs]
      exact run_bind hp

variable (ok : A → σ → Prop)

/-- The schedule runs the handler only where it is allowed to. -/
def Harmless : Prog A R α → (ℕ → Bool) → σ → Prop
  | ret _, _, _ => True
  | act a k, t, s => (t 0 = true → ok a s) ∧
      ∀ s' r s'', tick h (t 0) s = .ok s' → sem a s' = .ok (r, s'') →
        Harmless (k r) (fun n => t (n + 1)) s''

/-- Whether a schedule is allowed is found out by running the program. -/
instance Harmless.decidable [∀ a s, Decidable (ok a s)] : ∀ (p : Prog A R α) (t : ℕ → Bool) (s : σ),
    Decidable (Harmless sem h ok p t s)
  | ret _, _, _ => isTrue trivial
  | act a k, t, s =>
    match hs' : tick h (t 0) s with
    | .error _ => decidable_of_iff (t 0 = true → ok a s) ⟨fun ha =>
        ⟨ha, fun _ _ _ hu => nomatch hs'.symm.trans hu⟩, And.left⟩
    | .ok s' =>
      match hr : sem a s' with
      | .error _ => decidable_of_iff (t 0 = true → ok a s) ⟨fun ha => ⟨ha, fun u r s'' hu hv => by
          obtain rfl := Except.ok.inj (hs'.symm.trans hu)
          exact nomatch hr.symm.trans hv⟩, And.left⟩
      | .ok (r, s'') =>
        have := Harmless.decidable (k r) (fun n => t (n + 1)) s''
        decidable_of_iff ((t 0 = true → ok a s) ∧ Harmless sem h ok (k r) (fun n => t (n + 1)) s'')
          ⟨fun ha => ⟨ha.1, fun u r' u' hu hv => by
            obtain rfl := Except.ok.inj (hs'.symm.trans hu)
            obtain ⟨rfl, rfl⟩ := Prod.mk.inj (Except.ok.inj (hr.symm.trans hv))
            exact ha.2⟩, fun ha => ⟨ha.1, ha.2 s' r s'' hs' hr⟩⟩

/-- Where the handler may always run, every schedule is allowed. -/
theorem Harmless.of_ok {sem : (a : A) → σ → Except ε (R a × σ)} {h : σ → Except ε σ} {ok : A → σ → Prop}
    (hok : ∀ a s, ok a s) : ∀ (p : Prog A R α) (t : ℕ → Bool) (s : σ), Harmless sem h ok p t s
  | ret _, _, _ => trivial
  | act a k, t, s => ⟨fun _ => hok a s, fun _ r s'' _ _ => of_ok hok (k r) (fun n => t (n + 1)) s''⟩

/-- The program ends in `Q` under every allowed schedule. -/
def wp : Prog A R α → (α → σ → Prop) → σ → Prop
  | ret a, Q, s => Q a s
  | act a k, Q, s => (ok a s → ∃ s', h s = .ok s') ∧
      ∀ s', s' = s ∨ ok a s ∧ h s = .ok s' → ∃ r s'', sem a s' = .ok (r, s'') ∧ wp (k r) Q s''

variable {sem h ok}

theorem wp_mono {Q Q' : α → σ → Prop} (hQ : ∀ a s, Q a s → Q' a s) :
    ∀ {p : Prog A R α} {s : σ}, wp sem h ok p Q s → wp sem h ok p Q' s
  | ret _, _, hp => hQ _ _ hp
  | act _ _, _, hp => ⟨hp.1, fun s' hs' => by
    obtain ⟨r, s'', hr, hk⟩ := hp.2 s' hs'
    exact ⟨r, s'', hr, wp_mono hQ hk⟩⟩

theorem wp_bind {Q : β → σ → Prop} {k : α → Prog A R β} :
    ∀ {p : Prog A R α} {s : σ}, wp sem h ok p (fun a s => wp sem h ok (k a) Q s) s →
      wp sem h ok (p >>= k) Q s
  | ret _, _, hp => hp
  | act _ _, _, hp => ⟨hp.1, fun s' hs' => by
    obtain ⟨r, s'', hr, hk⟩ := hp.2 s' hs'
    exact ⟨r, s'', hr, wp_bind hk⟩⟩

/-- **One action, from an assertion that the handler keeps.** -/
theorem wp_act {P : σ → Prop} {a : A} {k : R a → Prog A R α} {Q : α → σ → Prop} {s : σ} (hs : P s)
    (hkeep : ∀ s, P s → ok a s → ∃ s', h s = .ok s' ∧ P s')
    (hact : ∀ s, P s → ∃ r s', sem a s = .ok (r, s') ∧ wp sem h ok (k r) Q s') :
    wp sem h ok (act a k) Q s := by
  refine ⟨fun ha => ?_, fun s' hs' => ?_⟩
  · obtain ⟨s', hs', -⟩ := hkeep s hs ha
    exact ⟨s', hs'⟩
  · rcases hs' with rfl | ⟨ha, hs'⟩
    · exact hact _ hs
    · obtain ⟨s1, hs1, hP⟩ := hkeep s hs ha
      obtain rfl : s1 = s' := Except.ok.inj (hs1.symm.trans hs')
      exact hact _ hP

/-- **A block of actions, from its run alone.** Before each of them the handler
only moves within `E`, and the action does not see the difference. -/
theorem wp_of_run {E : σ → σ → Prop} {H : A → Prop}
    (htrans : ∀ {s t u}, E s t → E t u → E s u)
    (hkeep : ∀ a s, H a → ok a s → ∃ s', h s = .ok s' ∧ E s s')
    (hact : ∀ a s t r s', H a → E s t → sem a s = .ok (r, s') →
      ∃ t', sem a t = .ok (r, t') ∧ E s' t') :
    ∀ {p : Prog A R α} {s s' t : σ} {a : α}, p.All H → run sem p s = .ok (a, s') → E s t →
      wp sem h ok p (fun b u => b = a ∧ E s' u) t
  | ret b, s, s', t, a, _, hrun, hE => by
    obtain ⟨rfl, rfl⟩ := Prod.mk.inj (Except.ok.inj hrun)
    exact ⟨rfl, hE⟩
  | act b k, s, s', t, a, hall, hrun, hE => by
    cases hs : sem b s with
    | error e => rw [run, hs] at hrun; nomatch hrun
    | ok x =>
      obtain ⟨r, s1⟩ := x
      rw [run_act sem hs] at hrun
      refine ⟨fun hb => ?_, fun u hu => ?_⟩
      · obtain ⟨u, hu, -⟩ := hkeep b t hall.1 hb
        exact ⟨u, hu⟩
      · have hEu : E s u := by
          rcases hu with rfl | ⟨hb, hu⟩
          · exact hE
          · obtain ⟨u', hu', hE'⟩ := hkeep b t hall.1 hb
            obtain rfl : u' = u := Except.ok.inj (hu'.symm.trans hu)
            exact htrans hE hE'
        obtain ⟨u', hu', hE'⟩ := hact b s u r s1 hall.1 hEu hs
        exact ⟨r, u', hu', wp_of_run (E := E) @htrans hkeep hact (hall.2 r) hrun hE'⟩

/-- **A preempted run under an allowed schedule ends well.** -/
theorem preempt_of_wp {Q : α → σ → Prop} : ∀ {p : Prog A R α} {t : ℕ → Bool} {s : σ},
    wp sem h ok p Q s → Harmless sem h ok p t s →
    ∃ a t' s', preempt sem h p t s = .ok (a, t', s') ∧ Q a s'
  | ret a, t, s, hp, _ => ⟨a, t, s, rfl, hp⟩
  | act a k, t, s, hp, ht => by
    have hmove : ∃ s', tick h (t 0) s = .ok s' ∧ (s' = s ∨ ok a s ∧ h s = .ok s') := by
      cases h0 : t 0 with
      | false => exact ⟨s, rfl, .inl rfl⟩
      | true =>
        obtain ⟨s', hs'⟩ := hp.1 (ht.1 h0)
        exact ⟨s', hs', .inr ⟨ht.1 h0, hs'⟩⟩
    obtain ⟨s', hs', hor⟩ := hmove
    obtain ⟨r, s'', hr, hk⟩ := hp.2 s' hor
    obtain ⟨b, t', u, hrun, hQ⟩ := preempt_of_wp hk (ht.2 s' r s'' hs' hr)
    refine ⟨b, t', u, ?_, hQ⟩
    rw [preempt, hs']
    change (sem a s' >>= _) = _
    rw [hr]
    exact hrun

/-- **The program alone ends well.** -/
theorem run_of_wp {Q : α → σ → Prop} : ∀ {p : Prog A R α} {s : σ},
    wp sem h ok p Q s → ∃ a s', run sem p s = .ok (a, s') ∧ Q a s'
  | ret a, s, hp => ⟨a, s, rfl, hp⟩
  | act a k, s, hp => by
    obtain ⟨r, s', hr, hk⟩ := hp.2 s (.inl rfl)
    rw [run_act sem hr]
    exact run_of_wp hk

/-- A schedule may leave a first part alone and then be any other. -/
theorem exists_schedule (h : σ → Except ε σ) {k : α → Prog A R β} (t' : ℕ → Bool) :
    ∀ {p : Prog A R α} {s s' : σ} {a : α}, run sem p s = .ok (a, s') →
      ∃ t, preempt sem h (p >>= k) t s = preempt sem h (k a) t' s'
  | ret b, s, s', a, hrun => by
    obtain ⟨rfl, rfl⟩ := Prod.mk.inj (Except.ok.inj hrun)
    exact ⟨t', rfl⟩
  | act b f, s, s', a, hrun => by
    cases hs : sem b s with
    | error e => rw [run, hs] at hrun; nomatch hrun
    | ok x =>
      obtain ⟨r, s1⟩ := x
      rw [run_act sem hs] at hrun
      obtain ⟨t, ht⟩ := exists_schedule h t' hrun
      refine ⟨fun n => n.casesOn false t, ?_⟩
      rw [act_bind, preempt]
      change (sem b s >>= _) = _
      rw [hs]
      exact ht

end Semantics

end Preempt
