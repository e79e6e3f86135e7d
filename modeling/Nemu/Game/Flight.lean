/-
# How long a letter flies

A letter falls by at least half a unit a step, or rises by three: after 448 steps
it is off the screen, whether its key was hit or not. The game creates one letter
every 33 steps, so at most 14 are live at a time.

Key definitions: `Letter.moved`, `Letter.left`, `Aged`.
Key theorems: `updateLetterPos_moves`, `Aged.create`, `Aged.update`, `Aged.card_le`.
-/
import Nemu.Game.Drawing

namespace Nemu

namespace Typing

open LinkList Fixed

/-! ### What the calls do to the letters -/

theorem of_bind {α β : Type} {x : Except Fault α} {f : α → Except Fault β} {b : β} (h : (x >>= f) = .ok b) :
    ∃ a, x = .ok a ∧ f a = .ok b := by
  cases x with
  | error e => exact absurd h (by simp)
  | ok a => exact ⟨a, rfl, h⟩

/-- A letter after a step. -/
def Letter.moved (l : Letter) : Letter := { l with x := l.x + l.v }

section Calls

variable {k : ℕ} {s s' : Game} {l pre post : List Fly} {it : Fly}

theorem of_num_int {n m : ℤ} (h : num (int n) = .ok m) : m = n := by
  by_cases hint : IsInt n
  · rw [num_int hint] at h
    exact (Except.ok.inj h).symm
  · rw [num_overflow hint] at h
    exact absurd h (by simp)

theorem countOut_frame {x : ℤ} (h : countOut x s = .ok s') : s'.pool = s.pool ∧ s'.letters = s.letters ∧
    s'.letterPressed = s.letterPressed := by
  unfold countOut at h
  split_ifs at h
  · obtain ⟨hit, -, h⟩ := of_bind h
    obtain rfl := Except.ok.inj h
    exact ⟨rfl, rfl, rfl⟩
  · obtain ⟨miss, -, h⟩ := of_bind h
    obtain rfl := Except.ok.inj h
    exact ⟨rfl, rfl, rfl⟩

/-- One letter moves, and may leave. -/
theorem moveLetter_frame {next : Option Fly} (h : moveLetter it next s = .ok s') :
    s'.letters = Function.update s.letters it (s.letters it).moved ∧ s'.pool.live ⊆ s.pool.live := by
  unfold moveLetter at h
  obtain ⟨x, hx, h⟩ := of_bind h
  obtain ⟨out, -, h⟩ := of_bind h
  obtain rfl := of_num_int hx
  split_ifs at h
  · obtain ⟨t, ht, h⟩ := of_bind h
    obtain ⟨hpool, hletters, -⟩ := countOut_frame ht
    obtain rfl := Except.ok.inj h
    refine ⟨hletters, ?_⟩
    dsimp only
    rw [hpool]
    exact Finset.erase_subset _ _
  · obtain rfl := Except.ok.inj h
    exact ⟨rfl, Finset.Subset.refl _⟩

/-- The letters that are left to move do so. -/
theorem moveLetters_moves {n : ℕ} (h : Good k s (pre ++ post)) (hrun : moveLetters n post.head? s = .ok s') :
    s'.pool.live ⊆ s.pool.live ∧ ∀ i, s'.letters i = if i ∈ post then (s.letters i).moved else s.letters i := by
  induction post generalizing n s pre with
  | nil =>
    have hs : s = s' := by
      cases n <;> exact Except.ok.inj hrun
    subst hs
    exact ⟨Finset.Subset.refl _, fun i => (if_neg List.not_mem_nil).symm⟩
  | cons it post ih =>
    have hnext : s.pool.next it = post.head? := h.inUse.list.links.1
    have hitp : it ∉ post := by
      have hnodup := List.nodup_middle.mp h.inUse.list.nodup
      exact fun hmem => (List.nodup_cons.mp hnodup).1 (List.mem_append_right _ hmem)
    cases n with
    | zero => exact absurd hrun (by simp [moveLetters])
    | succ n =>
      obtain ⟨t, ht, hrest⟩ := of_bind (show (moveLetter it (s.pool.next it) s >>= moveLetters n (s.pool.next it)) = _
        from hrun)
      obtain ⟨hletters, hlive⟩ := moveLetter_frame ht
      rcases moveLetter_cases h with ⟨t', pre', ht', hgood⟩ | ⟨ht', -⟩
      · obtain rfl := Except.ok.inj (ht'.symm.trans ht)
        rw [hnext] at hrest
        obtain ⟨hlive', hall⟩ := ih hgood hrest
        refine ⟨hlive'.trans hlive, fun i => ?_⟩
        rw [hall, hletters]
        by_cases hi : i = it
        · subst hi
          rw [if_neg hitp, if_pos List.mem_cons_self, Function.update_self]
        · rw [Function.update_of_ne hi]
          simp only [List.mem_cons, hi, false_or]
      · exact absurd (ht'.symm.trans ht) (by simp)

/-- **Every letter that stays has moved once.** -/
theorem updateLetterPos_moves (h : Good k s l) (hrun : updateLetterPos s = .ok s') :
    s'.pool.live ⊆ s.pool.live ∧ ∀ i ∈ s'.pool.live, s'.letters i = (s.letters i).moved := by
  have h' : Good k s ([] ++ l) := h
  unfold updateLetterPos at hrun
  rw [h.inUse.list.head_eq] at hrun
  obtain ⟨hlive, hall⟩ := moveLetters_moves h' hrun
  refine ⟨hlive, fun i hi => ?_⟩
  rw [hall, if_pos ((h.inUse.mem_iff i).mpr (hlive hi))]

/-- The letter that is created. -/
theorem createNewLetter_letters {ry rv rt : Rand} (hrun : createNewLetter ry rv rt s = .ok s') : ∃ n y t v,
    s'.head = some n ∧ s'.letters = Function.update s.letters n ⟨0, y, t, v⟩ ∧ 32768 ≤ v ∧
      0 ≤ y ∧ y ≤ 312 := by
  obtain ⟨v, hv, hlo, -⟩ := newSpeed_ok rv
  unfold createNewLetter at hrun
  obtain ⟨⟨n, pool⟩, -, hrun⟩ := of_bind hrun
  dsimp only at hrun
  rw [hv, done_bind] at hrun
  obtain ⟨pressed, -, hrun⟩ := of_bind hrun
  obtain rfl := Except.ok.inj hrun
  refine ⟨n, _, _, v, rfl, rfl, hlo, by omega, ?_⟩
  unfold scrWidth
  omega

/-- **A letter is created** at a node that was not live. -/
theorem createNewLetter_new {ry rv rt : Rand} (h : Good k s l) (hroom : s.pool.live.card < 1000)
    (hrun : createNewLetter ry rv rt s = .ok s') : ∃ n y t v, Good (k + 1) s' (n :: l) ∧ n ∉ l ∧
      s'.letters = Function.update s.letters n ⟨0, y, t, v⟩ ∧ 32768 ≤ v ∧ 0 ≤ y ∧ y ≤ 312 := by
  obtain ⟨t', n, hrun', hgood⟩ := createNewLetter_ok h hroom ry rv rt
  obtain rfl := Except.ok.inj (hrun'.symm.trans hrun)
  obtain ⟨m, y, t, v, hhead, hletters, hv, hy⟩ := createNewLetter_letters hrun
  obtain rfl : n = m := Option.some.inj (hgood.inUse.list.head_eq.symm.trans hhead)
  exact ⟨n, y, t, v, hgood, (List.nodup_cons.mp hgood.inUse.list.nodup).1, hletters, hv, hy⟩

end Calls

/-! ### How long -/

/-- How many more steps a letter can be on the screen for, at most. -/
def Letter.left (l : Letter) : ℤ := if 0 < l.v then 64 + (12589466 - l.x) / 32768 else l.x / 196608

/-- It falls fast enough, or it was hit. -/
def Letter.Flying (l : Letter) : Prop := 32768 ≤ l.v ∨ l.v = -196608

theorem Letter.left_nonneg {l : Letter} (h : l.OnScreen) : 0 ≤ l.left := by
  have := h.x_nonneg
  have := h.x_le
  unfold left
  split_ifs <;> omega

/-- A step is one step less. -/
theorem Letter.left_moved {l : Letter} (hf : l.Flying) : l.moved.left ≤ l.left - 1 := by
  unfold left moved Flying at *
  dsimp only
  split_ifs <;> omega

/-- A letter that is hit goes up sooner than it would have gone down. -/
theorem Letter.left_turned {l : Letter} (h : l.OnScreen) (hv : 0 < l.v) : l.turned.left ≤ l.left := by
  have := h.x_nonneg
  have := h.x_le
  have hneg : ¬ (0 : ℤ) < -196608 := by decide
  unfold left turned
  dsimp only
  rw [if_pos hv, if_neg hneg]
  omega

/-- After `m` steps, the live letters were created after different numbers `born` of
steps, which are multiples of 33 below `b`; and no letter lives for more than 448 steps. -/
structure Aged (b m : ℤ) (s : Game) (born : Fly → ℤ) : Prop where
  inj : Set.InjOn born s.pool.live
  period : ∀ i ∈ s.pool.live, 33 ∣ born i
  lt : ∀ i ∈ s.pool.live, born i < b
  age : ∀ i ∈ s.pool.live, m - born i + (s.letters i).left ≤ 448
  flying : ∀ i ∈ s.pool.live, (s.letters i).Flying
  placed : ∀ i ∈ s.pool.live, (s.letters i).Placed

namespace Aged

variable {b m : ℤ} {k : ℕ} {s s' : Game} {l : List Fly} {born : Fly → ℤ}

theorem init : Aged 0 0 Typing.init fun _ => 0 := by
  have hnone : ∀ i, i ∉ Typing.init.pool.live := Finset.notMem_empty
  exact ⟨fun i hi => absurd hi (hnone i), fun i hi => absurd hi (hnone i), fun i hi => absurd hi (hnone i),
    fun i hi => absurd hi (hnone i), fun i hi => absurd hi (hnone i), fun i hi => absurd hi (hnone i)⟩

/-- **At most 14 letters** are live. -/
theorem card_le (h : Aged b m s born) (hgood : Good k s l) (hb : b ≤ m + 1) : s.pool.live.card ≤ 14 := by
  have hinj : Set.InjOn (fun i => born i / 33) s.pool.live := by
    intro i hi j hj hij
    apply h.inj hi hj
    obtain ⟨p, hp⟩ := h.period i hi
    obtain ⟨q, hq⟩ := h.period j hj
    dsimp only at hij
    omega
  have hrange : s.pool.live.image (fun i => born i / 33) ⊆ Finset.Icc (m / 33 - 13) (m / 33) := by
    intro q hq
    obtain ⟨i, hi, rfl⟩ := Finset.mem_image.mp hq
    have hleft := Letter.left_nonneg (hgood.onScreen i ((hgood.inUse.mem_iff i).mpr hi))
    have hage := h.age i hi
    have hlt := h.lt i hi
    obtain ⟨p, hp⟩ := h.period i hi
    rw [Finset.mem_Icc]
    omega
  calc s.pool.live.card = (s.pool.live.image fun i => born i / 33).card := (Finset.card_image_of_injOn hinj).symm
    _ ≤ (Finset.Icc (m / 33 - 13) (m / 33)).card := Finset.card_le_card hrange
    _ = 14 := by
      rw [Int.card_Icc]
      omega

/-- The next period may begin. -/
theorem mono {b' : ℤ} (h : Aged b m s born) (hb : b ≤ b') : Aged b' m s born :=
  { h with lt := fun i hi => lt_of_lt_of_le (h.lt i hi) hb }

/-- **A letter is created** at the start of a period. -/
theorem create {ry rv rt : Rand} (h : Aged m m s born) (hgood : Good k s l) (hroom : s.pool.live.card < 1000)
    (hm : 33 ∣ m) (hrun : createNewLetter ry rv rt s = .ok s') :
    ∃ born' l', Aged (m + 1) m s' born' ∧ Good (k + 1) s' l' := by
  obtain ⟨n, y, t, v, hgood', hn, hletters, hv, hy0, hy1⟩ := createNewLetter_new hgood hroom hrun
  have hlive : ∀ i ∈ s'.pool.live, i = n ∨ i ≠ n ∧ i ∈ s.pool.live := by
    intro i hi
    rcases List.mem_cons.mp ((hgood'.inUse.mem_iff i).mpr hi) with rfl | hil
    · exact .inl rfl
    · exact .inr ⟨fun he => hn (he ▸ hil), (hgood.inUse.mem_iff i).mp hil⟩
  -- what holds of the new letter and of those before it holds of all
  have hall : ∀ P : ℤ → Letter → Prop, P m ⟨0, y, t, v⟩ → (∀ i ∈ s.pool.live, P (born i) (s.letters i)) →
      ∀ i ∈ s'.pool.live, P (Function.update born n m i) (s'.letters i) := by
    intro P hnew hold i hi
    rw [hletters]
    rcases hlive i hi with rfl | ⟨hne, hi⟩
    · rwa [Function.update_self, Function.update_self]
    · rw [Function.update_of_ne hne, Function.update_of_ne hne]
      exact hold i hi
  have hleft : (⟨0, y, t, v⟩ : Letter).left = 448 := by
    have hpos : 0 < v := by omega
    unfold Letter.left
    dsimp only
    rw [if_pos hpos]
    rfl
  refine ⟨Function.update born n m, _, ⟨fun i hi j hj hij => ?_, hall (fun b _ => 33 ∣ b) hm h.period,
    hall (fun b _ => b < m + 1) (by omega) fun i hi => by have := h.lt i hi; omega,
    hall (fun b l => m - b + l.left ≤ 448) (by omega) h.age, hall (fun _ l => l.Flying) (.inl hv) h.flying,
    hall (fun _ l => l.Placed) ⟨hy0, hy1⟩ h.placed⟩, hgood'⟩
  rcases hlive i hi with rfl | ⟨hin, hi⟩ <;> rcases hlive j hj with rfl | ⟨hjn, hj⟩
  · rfl
  · rw [Function.update_self, Function.update_of_ne hjn] at hij
    exact absurd hij (h.lt j hj).ne'
  · rw [Function.update_self, Function.update_of_ne hin] at hij
    exact absurd hij (h.lt i hi).ne
  · rw [Function.update_of_ne hin, Function.update_of_ne hjn] at hij
    exact h.inj hi hj hij

/-- **A step.** -/
theorem update (h : Aged b m s born) (hgood : Good k s l) (hrun : updateLetterPos s = .ok s') :
    Aged b (m + 1) s' born := by
  obtain ⟨hlive, hmoved⟩ := updateLetterPos_moves hgood hrun
  refine ⟨h.inj.mono hlive, fun i hi => h.period i (hlive hi), fun i hi => h.lt i (hlive hi), fun i hi => ?_,
    fun i hi => ?_, fun i hi => ?_⟩
  · have hage := h.age i (hlive hi)
    have hleft := Letter.left_moved (h.flying i (hlive hi))
    rw [hmoved i hi]
    omega
  · rw [hmoved i hi]
    exact h.flying i (hlive hi)
  · rw [hmoved i hi]
    exact ⟨(h.placed i (hlive hi)).y_nonneg, (h.placed i (hlive hi)).y_le⟩

/-- Letters may be turned round. -/
theorem turn (h : Aged b m s born) (hgood : Good k s l) (hlive : s'.pool.live = s.pool.live)
    (hturn : ∀ i ∈ l, s'.letters i = s.letters i ∨ 0 < (s.letters i).v ∧ s'.letters i = (s.letters i).turned) :
    Aged b m s' born := by
  have hsub : ∀ i ∈ s'.pool.live, i ∈ s.pool.live := fun i hi => hlive ▸ hi
  have hcases := fun i hi => hturn i ((hgood.inUse.mem_iff i).mpr (hsub i hi))
  refine ⟨hlive ▸ h.inj, fun i hi => h.period i (hsub i hi), fun i hi => h.lt i (hsub i hi), fun i hi => ?_,
    fun i hi => ?_, fun i hi => ?_⟩
  · have hage := h.age i (hsub i hi)
    rcases hcases i hi with heq | ⟨hv, heq⟩
    · rwa [heq]
    · have hon := hgood.onScreen i ((hgood.inUse.mem_iff i).mpr (hsub i hi))
      have hleft := Letter.left_turned hon hv
      rw [heq]
      omega
  · rcases hcases i hi with heq | ⟨-, heq⟩
    · rw [heq]
      exact h.flying i (hsub i hi)
    · rw [heq]
      exact .inr rfl
  · have hplaced := h.placed i (hsub i hi)
    rcases hcases i hi with heq | ⟨-, heq⟩
    · rwa [heq]
    · rw [heq]
      exact ⟨hplaced.y_nonneg, hplaced.y_le⟩

end Aged

end Typing

end Nemu
