/-
# Which letters the keys hit

`while (update_keypress());` looks for a falling letter whose key is down, the
lowest first, turns it round and releases the key, until there is none. So every
key that is down hits one letter, the lowest of those that carry it and still
fall; the key stays down if there is none, and all other letters are left alone.

Key definitions: `KeyShot`, `KeysOnly`, `KeyKept`, `keyLoop`.
Key theorems: `Hunt.step`, `keyLoop_shoots`.
-/
import Nemu.Game.Flight

namespace Nemu

namespace Typing

open LinkList Fixed DoWhile

/-- `while (update_keypress());`, with at most so many rounds. -/
def keyLoop (n : ℕ) (s : Game) : Except Fault (Option Game) := doWhile updateKeypress n s

/-- A key hits the lowest of the falling letters that carry it, and is up then. -/
structure KeyShot (l : List Fly) (s s' : Game) (c : Fin 26) : Prop where
  down : s.letterPressed c = true
  up : s'.letterPressed c = false
  target : ∃ t ∈ l, (s.letters t).key = c ∧ 0 < (s.letters t).v ∧ s'.letters t = (s.letters t).turned ∧
    ∀ i ∈ l, (s.letters i).key = c →
      (0 < (s.letters i).v → (s.letters i).x ≤ (s.letters t).x) ∧ (i ≠ t → s'.letters i = s.letters i)

/-- Only the keys and the letters of the list have changed. -/
structure KeysOnly (l : List Fly) (s s' : Game) : Prop where
  pool : s'.pool = s.pool
  head : s'.head = s.head
  hit : s'.hit = s.hit
  miss : s'.miss = s.miss
  others : ∀ i ∉ l, s'.letters i = s.letters i

/-- A key and its letters are left alone. -/
structure KeyKept (l : List Fly) (s s' : Game) (c : Fin 26) : Prop where
  pressed : s'.letterPressed c = s.letterPressed c
  letters : ∀ i ∈ l, (s.letters i).key = c → s'.letters i = s.letters i

/-! ### The loop -/

section Loop

variable {k : ℕ} {s u : Game} {l : List Fly}

/-- The keys that are down. -/
def keysDown (s : Game) : ℕ := (Finset.univ.filter fun c => s.letterPressed c = true).card

theorem keysDown_le (s : Game) : keysDown s ≤ 26 :=
  (Finset.card_le_univ _).trans (by rw [Fintype.card_fin])

/-- What the loop has done so far. -/
structure Hunt (k : ℕ) (l : List Fly) (s u : Game) : Prop extends KeysOnly l s u where
  good : Good k u l
  keys : ∀ c, KeyShot l s u c ∨ KeyKept l s u c

namespace Hunt

theorem start (h : Good k s l) : Hunt k l s s :=
  ⟨⟨rfl, rfl, rfl, rfl, fun _ _ => rfl⟩, h, fun _ => .inr ⟨rfl, fun _ _ _ => rfl⟩⟩

/-- No letter has changed but for its speed. -/
theorem key (h : Hunt k l s u) {i : Fly} (hi : i ∈ l) : (u.letters i).key = (s.letters i).key := by
  rcases h.keys (s.letters i).key with ⟨-, -, t, ht, -, -, hturned, hall⟩ | hkept
  · by_cases hit : i = t
    · rw [hit, hturned]
      rfl
    · rw [(hall i hi rfl).2 hit]
  · rw [hkept.letters i hi rfl]

/-- **A round** hits one more letter. -/
theorem step (h : Hunt k l s u) {t : Fly} (ht : t ∈ l) (hw : Wanted u t)
    (hall : ∀ i ∈ l, Wanted u i → (u.letters i).x ≤ (u.letters t).x)
    (hrun : updateKeypress u = .ok (true, { u with
      letters := Function.update u.letters t (u.letters t).turned
      letterPressed := Function.update u.letterPressed (u.letters t).key false })) :
    Hunt k l s { u with
      letters := Function.update u.letters t (u.letters t).turned
      letterPressed := Function.update u.letterPressed (u.letters t).key false } := by
  obtain ⟨b, u', hrun', hgood⟩ := updateKeypress_ok h.good
  obtain ⟨-, rfl⟩ := Prod.mk.inj (Except.ok.inj (hrun'.symm.trans hrun))
  have hkey := h.key ht
  have hout : ∀ i ∉ l, Function.update u.letters t (u.letters t).turned i = s.letters i := fun i hi =>
    (Function.update_of_ne (fun hit => hi (by rwa [hit])) ..).trans (h.others i hi)
  refine ⟨⟨h.pool, h.head, h.hit, h.miss, hout⟩, hgood, fun c => ?_⟩
  by_cases hc : c = (u.letters t).key
  · -- the key was down, so nothing of it had changed
    subst hc
    rcases h.keys (u.letters t).key with hshot | hkept
    · exact absurd (hshot.up.symm.trans hw.2) Bool.false_ne_true
    · have hsame := hkept.letters t ht hkey.symm
      refine .inl ⟨hkept.pressed ▸ hw.2, Function.update_self .., t, ht, hkey.symm, hsame ▸ hw.1, ?_,
        fun i hi hik => ⟨fun hv => ?_, fun hne => ?_⟩⟩
      · rw [← hsame]
        exact Function.update_self ..
      · have hi' := hkept.letters i hi hik
        rw [← hi', ← hsame]
        refine hall i hi ⟨hi' ▸ hv, ?_⟩
        rw [hi', hik]
        exact hw.2
      · rw [← hkept.letters i hi hik]
        exact Function.update_of_ne hne ..
  · have hother : ∀ i ∈ l, (s.letters i).key = c → i ≠ t := by
      rintro i hi rfl rfl
      exact hc hkey.symm
    rcases h.keys c with ⟨hdown, hup, i, hi, hik, hv, hturned, hrest⟩ | ⟨hpressed, hletters⟩
    · refine .inl ⟨hdown, (Function.update_of_ne hc ..).trans hup, i, hi, hik, hv,
        (Function.update_of_ne (hother i hi hik) ..).trans hturned, fun j hj hjk => ⟨(hrest j hj hjk).1, fun hne => ?_⟩⟩
      exact (Function.update_of_ne (hother j hj hjk) ..).trans ((hrest j hj hjk).2 hne)
    · refine .inr ⟨(Function.update_of_ne hc ..).trans hpressed, fun i hi hik => ?_⟩
      exact (Function.update_of_ne (hother i hi hik) ..).trans (hletters i hi hik)

end Hunt

/-- Each round releases a key. -/
theorem keysDown_lt {c : Fin 26} (hc : s.letterPressed c = true) (letters : Fly → Letter) :
    keysDown { s with letters, letterPressed := Function.update s.letterPressed c false } < keysDown s := by
  apply Finset.card_lt_card
  refine Finset.ssubset_iff_of_subset (fun d hd => ?_) |>.mpr ⟨c, ?_, ?_⟩
  · rw [Finset.mem_filter] at hd ⊢
    refine ⟨hd.1, ?_⟩
    by_cases hdc : d = c
    · rw [hdc]
      exact hc
    · exact (Function.update_of_ne hdc ..).symm.trans hd.2
  · exact Finset.mem_filter.mpr ⟨Finset.mem_univ c, hc⟩
  · intro hmem
    have hfalse := (Finset.mem_filter.mp hmem).2
    dsimp only at hfalse
    rw [Function.update_self] at hfalse
    exact Bool.false_ne_true hfalse

/-- **The keys that are down** hit one letter each, the lowest that carries it and falls, if
there is one; nothing else changes, and the loop ends. -/
theorem keyLoop_shoots (h : Good k s l) : ∃ s', (∀ n, 26 < n → keyLoop n s = .ok (some s')) ∧ Hunt k l s s' ∧
    ∀ c, KeyShot l s s' c ∨ KeyKept l s s' c ∧
      (s.letterPressed c = true → ∀ i ∈ l, (s.letters i).key = c → ¬0 < (s.letters i).v) := by
  have hround : ∀ u, Hunt k l s u → ∃ u', (updateKeypress u = .ok (true, u') ∧ Hunt k l s u' ∧ keysDown u' < keysDown u) ∨
      (updateKeypress u = .ok (false, u') ∧ Hunt k l s u' ∧ ∀ i ∈ l, ¬Wanted u' i) := by
    intro u hu
    rcases updateKeypress_cases hu.good with ⟨hrun, hnone⟩ | ⟨t, ht, hw, hall, hrun⟩
    · exact ⟨u, .inr ⟨hrun, hu, hnone⟩⟩
    · exact ⟨_, .inl ⟨hrun, hu.step ht hw hall hrun, keysDown_lt hw.2 _⟩⟩
  obtain ⟨s', ⟨hhunt, hnone⟩, hend⟩ := doWhile_total hround (Hunt.start h)
  refine ⟨s', fun n hn => hend n (Nat.lt_of_le_of_lt (keysDown_le s) hn), hhunt, fun c => ?_⟩
  refine (hhunt.keys c).imp_right fun hkept => ⟨hkept, fun hdown i hi hik hv => hnone i hi ⟨?_, ?_⟩⟩
  · rwa [hkept.letters i hi hik]
  · rw [hkept.letters i hi hik, hik, hkept.pressed]
    exact hdown

end Loop

end Typing

end Nemu
