/-
# The node pool

`LINKLIST_IMPL` of `linklist.h`: a pool of `SIZE + 1` nodes with the links `_prev`
and `_next`. A node that is not in use is on the free list, which goes along
`_next` too; it is set up by the first `new`, and its last node is never given
away. `none` is a null pointer, or an assertion that fails.

Which nodes are in use is not kept by the source: `live` are those that `new` has
returned and `free` has not taken back.

Key definitions: `Pool`, `Pool.new`, `Pool.insert`, `Pool.remove`, `Pool.free`, `FreeList`,
`Partitioned`, `InUse`.
Key theorems: `Partitioned.new`, `Partitioned.new_fresh`, `FreeList.free`, `InUse.front`,
`InUse.remove`.
-/
import Nemu.Lib.DoubleChain
import Mathlib.Data.Finset.Card
import Mathlib.Data.Fintype.Card

namespace Nemu

namespace LinkList

variable {size : ℕ}

/-- A node of the pool, by its index. -/
abbrev Node (size : ℕ) := Fin (size + 1)

/-- `NAME_pool`, without the data, and `NAME_free_head`. -/
structure Pool (size : ℕ) where
  prev : Node size → Option (Node size)
  next : Node size → Option (Node size)
  freeHead : Option (Node size)
  live : Finset (Node size)

namespace Pool

/-- Before the first call. -/
def init : Pool size := ⟨fun _ => none, fun _ => none, none, ∅⟩

/-- `for (i = 1; i <= SIZE; i ++) pool[i - 1]._next = pool + i`. -/
def linkAll (next : Node size → Option (Node size)) (i : Node size) : Option (Node size) :=
  if h : i.val < size then some ⟨i.val + 1, Nat.succ_lt_succ h⟩ else next i

/-- `NAME_new`. -/
def new (p : Pool size) : Option (Node size × Pool size) :=
  let (freeHead, next) :=
    match p.freeHead with
    | none => (0, linkAll p.next)
    | some freeHead => (freeHead, p.next)
  match next freeHead with
  | none => none
  | some rest =>
    some (freeHead, { prev := Function.update p.prev freeHead none, next := Function.update next freeHead none,
                      freeHead := some rest, live := insert freeHead p.live })

/-- `NAME_insert`. -/
def insert (prev next : Option (Node size)) (obj : Node size) (p : Pool size) : Option (Pool size) :=
  if prev ≠ none ∨ next ≠ none then
    let p := { p with prev := Function.update p.prev obj prev, next := Function.update p.next obj next }
    let p := { p with next := DList.bypass p.next prev (some obj) }
    some { p with prev := DList.bypass p.prev next (some obj) }
  else none

/-- `NAME_remove`. -/
def remove (node : Node size) (p : Pool size) : Pool size :=
  let prev := p.prev node
  let next := p.next node
  let p := { p with next := DList.bypass p.next prev next }
  { p with prev := DList.bypass p.prev next prev }

/-- `NAME_free`. -/
def free (node : Node size) (p : Pool size) : Pool size :=
  { p with next := Function.update p.next node p.freeHead, freeHead := some node, live := p.live.erase node }

end Pool

/-! ### The free list -/

/-- The nodes `f`, and then the last one, are on the free list; the others are live. -/
structure FreeList (p : Pool size) (f : List (Node size)) : Prop where
  seg : Seg p.next p.freeHead (f ++ [Fin.last size]) none
  nodup : (f ++ [Fin.last size]).Nodup
  mem_iff : ∀ n, n ∈ f ++ [Fin.last size] ↔ n ∉ p.live

/-- A node is on the free list or live, but not both, from the first call of `new` on. -/
def Partitioned (p : Pool size) : Prop := p = Pool.init ∨ ∃ f, FreeList p f

section FreeList

variable {p : Pool size} {f : List (Node size)} {n : Node size}

/-- The links that the first call sets up, from a node on. -/
theorem seg_linkAll {next : Node size → Option (Node size)} (hlast : next (Fin.last size) = none) (k : ℕ)
    (hk : k < size + 1) :
    Seg (Pool.linkAll next) (some ⟨k, hk⟩) ((List.finRange (size + 1)).drop k) none := by
  have hlen : k < (List.finRange (size + 1)).length := by rwa [List.length_finRange]
  have hget : (List.finRange (size + 1))[k] = ⟨k, hk⟩ := List.getElem_finRange hlen
  rw [List.drop_eq_getElem_cons hlen, hget]
  refine ⟨rfl, ?_⟩
  by_cases hlt : k < size
  · rw [Pool.linkAll, dif_pos hlt]
    exact seg_linkAll hlast (k + 1) (Nat.succ_lt_succ hlt)
  · have hend : k = size := by omega
    subst hend
    rw [Pool.linkAll, dif_neg hlt, List.drop_of_length_le (by rw [List.length_finRange])]
    exact hlast
termination_by size - k

/-- The pool when the first call has set it up. -/
def ready : Pool size := { Pool.init with next := Pool.linkAll fun _ => none, freeHead := some 0 }

theorem new_init : (Pool.init : Pool size).new = (ready : Pool size).new := rfl

theorem ready_freeList (size : ℕ) : FreeList (ready : Pool size) ((List.finRange size).map Fin.castSucc) := by
  have hall : (List.finRange size).map Fin.castSucc ++ [Fin.last size] = List.finRange (size + 1) :=
    (List.finRange_succ_last).symm
  refine ⟨?_, ?_, fun n => ?_⟩
  · rw [hall]
    exact seg_linkAll rfl 0 (Nat.succ_pos size)
  · rw [hall]
    exact List.nodup_finRange _
  · rw [hall]
    exact ⟨fun _ => Finset.notMem_empty n, fun _ => List.mem_finRange n⟩

/-- Apart from the last node, the list has as many nodes as are not live. -/
theorem FreeList.length (h : FreeList p f) : f.length + p.live.card = size := by
  have hcompl : (f ++ [Fin.last size]).toFinset = p.liveᶜ := by
    ext n
    rw [List.mem_toFinset, Finset.mem_compl, h.mem_iff]
  have hcard := congrArg Finset.card hcompl
  rw [List.toFinset_card_of_nodup h.nodup, Finset.card_compl, Fintype.card_fin, List.length_append,
    List.length_singleton] at hcard
  have hle : p.live.card ≤ size + 1 := by simpa using Finset.card_le_univ p.live
  omega

/-- The pool is used up: the last node is not given away. -/
theorem FreeList.new_nil (h : FreeList p []) : p.new = none := by
  obtain ⟨hhead, hnext⟩ := h.seg
  unfold Pool.new
  rw [hhead]
  dsimp only
  rw [show p.next (Fin.last size) = none from hnext]

/-- The first node of the free list is given away. -/
theorem FreeList.new (h : FreeList p (n :: f)) : ∃ p', p.new = some (n, p') ∧ FreeList p' f ∧
    p'.live = insert n p.live ∧ p'.prev = Function.update p.prev n none ∧
    p'.next = Function.update p.next n none := by
  obtain ⟨⟨hhead, hseg⟩, hnodup, hmem⟩ := h
  obtain ⟨hn, hnodup⟩ := List.nodup_cons.mp hnodup
  obtain ⟨rest, hrest⟩ : ∃ rest, p.next n = some rest := by
    cases f with
    | nil => exact ⟨_, hseg.1⟩
    | cons i f => exact ⟨_, hseg.1⟩
  have hnew : p.new = some (n, ⟨Function.update p.prev n none, Function.update p.next n none, some rest,
      insert n p.live⟩) := by
    unfold Pool.new
    rw [hhead]
    dsimp only
    rw [hrest]
  refine ⟨_, hnew, ⟨?_, hnodup, fun i => ?_⟩, rfl, rfl, rfl⟩
  · rw [← hrest]
    refine hseg.congr fun i hi => Function.update_of_ne ?_ _ _
    rintro rfl
    exact hn hi
  · have hi := hmem i
    rw [List.cons_append, List.mem_cons] at hi
    rw [Finset.mem_insert, not_or, ← hi]
    refine ⟨fun hif => ⟨?_, .inr hif⟩, fun hif => hif.2.resolve_left hif.1⟩
    rintro rfl
    exact hn hif

/-- **A node is given away** as long as fewer than `size` are live. -/
theorem Partitioned.new (h : Partitioned p) (hroom : p.live.card < size) : ∃ n p' f, p.new = some (n, p') ∧
    FreeList p' f ∧ n ∉ p.live ∧ p'.live = insert n p.live ∧
    p'.prev = Function.update p.prev n none ∧ p'.next n = none ∧ ∀ i ∈ p.live, p'.next i = p.next i := by
  rcases h with rfl | ⟨f, hf⟩
  · have hlen := (ready_freeList size).length
    have hf := ready_freeList size
    rw [new_init]
    cases hlist : (List.finRange size).map Fin.castSucc with
    | nil =>
      rw [hlist] at hlen
      exact absurd hlen (Nat.ne_of_lt hroom)
    | cons n f =>
      rw [hlist] at hf
      obtain ⟨p', hnew, hfree, hlive, hprev, hnext⟩ := hf.new
      refine ⟨n, p', f, hnew, hfree, Finset.notMem_empty n, hlive, hprev, ?_, fun i hi => ?_⟩
      · rw [hnext, Function.update_self]
      · exact absurd hi (Finset.notMem_empty i)
  · have hlen := hf.length
    cases f with
    | nil => exact absurd hlen (by rw [List.length_nil]; omega)
    | cons n f =>
      obtain ⟨p', hnew, hfree, hlive, hprev, hnext⟩ := hf.new
      have hn : n ∉ p.live := (hf.mem_iff n).mp List.mem_cons_self
      refine ⟨n, p', f, hnew, hfree, hn, hlive, hprev, ?_, fun i hi => ?_⟩
      · rw [hnext, Function.update_self]
      · rw [hnext, Function.update_of_ne]
        rintro rfl
        exact hn hi

/-- **What is given away** is neither live nor the last node of the pool. -/
theorem Partitioned.new_fresh (h : Partitioned p) {p' : Pool size} (hnew : p.new = some (n, p')) :
    n ∉ p.live ∧ n ≠ Fin.last size := by
  obtain ⟨q, f, hq, hf, hlive⟩ : ∃ q f, q.new = some (n, p') ∧ FreeList q f ∧ q.live = p.live := by
    rcases h with rfl | ⟨f, hf⟩
    · exact ⟨ready, _, hnew, ready_freeList _, rfl⟩
    · exact ⟨p, f, hnew, hf, rfl⟩
  cases f with
  | nil => exact nomatch hf.new_nil.symm.trans hq
  | cons m f =>
    obtain ⟨p'', hm, -⟩ := hf.new
    obtain ⟨rfl, rfl⟩ := Prod.mk.inj (Option.some.inj (hm.symm.trans hq))
    refine ⟨hlive ▸ (hf.mem_iff m).mp List.mem_cons_self, ?_⟩
    rintro rfl
    exact (List.nodup_cons.mp hf.nodup).1 (by simp)

/-- The links of live nodes do not matter. -/
theorem FreeList.congr {q : Pool size} (h : FreeList p f) (hhead : q.freeHead = p.freeHead)
    (hlive : q.live = p.live) (hnext : ∀ i, i ∉ p.live → q.next i = p.next i) : FreeList q f := by
  refine ⟨?_, h.nodup, fun n => hlive ▸ h.mem_iff n⟩
  rw [hhead]
  exact h.seg.congr fun i hi => hnext i ((h.mem_iff i).mp hi)

/-- **A live node is taken back.** -/
theorem FreeList.free (h : FreeList p f) (hn : n ∈ p.live) : FreeList (p.free n) (n :: f) := by
  have hnf : n ∉ f ++ [Fin.last size] := fun hmem => (h.mem_iff n).mp hmem hn
  refine ⟨⟨rfl, ?_⟩, List.nodup_cons.mpr ⟨hnf, h.nodup⟩, fun i => ?_⟩
  · have hself : (p.free n).next n = p.freeHead := Function.update_self ..
    rw [hself]
    refine h.seg.congr fun i hi => Function.update_of_ne ?_ _ _
    rintro rfl
    exact hnf hi
  · change i ∈ n :: (f ++ [Fin.last size]) ↔ i ∉ p.live.erase n
    rw [List.mem_cons, h.mem_iff, Finset.mem_erase, not_and_or, not_not]

end FreeList

/-! ### The list of the live nodes -/

/-- The live nodes are a list from `a` on; the others are on the free list. -/
structure InUse (p : Pool size) (a : Option (Node size)) (l : List (Node size)) : Prop where
  list : DList p.next p.prev a l
  mem_iff : ∀ n, n ∈ l ↔ n ∈ p.live
  pool : Partitioned p

namespace InUse

variable {p : Pool size} {a : Option (Node size)} {l pre post : List (Node size)} {x h : Node size}

theorem init : InUse (Pool.init : Pool size) none [] :=
  ⟨DList.nil .., fun n => ⟨fun hn => (List.not_mem_nil hn).elim, fun hn => (Finset.notMem_empty n hn).elim⟩,
    .inl rfl⟩

theorem card (hp : InUse p a l) : p.live.card = l.length := by
  have hset : p.live = l.toFinset := by
    ext n
    rw [List.mem_toFinset, hp.mem_iff]
  rw [hset, List.toFinset_card_of_nodup hp.list.nodup]

/-- A node is given away when none is live, and is the list. -/
theorem first (hp : InUse p none l) (hroom : p.live.card < size) :
    l = [] ∧ ∃ n p', p.new = some (n, p') ∧ InUse p' (some n) [n] := by
  have hl : l = [] := List.head?_eq_none_iff.mp hp.list.head_eq.symm
  subst hl
  obtain ⟨n, p', f, hnew, hfree, hn, hlive, hprev, hnext, -⟩ := hp.pool.new hroom
  refine ⟨rfl, n, p', hnew, ⟨⟨rfl, hnext⟩, ⟨?_, trivial⟩, List.nodup_singleton n⟩, fun i => ?_, .inr ⟨f, hfree⟩⟩
  · rw [hprev, Function.update_self]
  · rw [hlive, Finset.mem_insert, List.mem_singleton, ← hp.mem_iff]
    simp

/-- A node is given away, and put at the front. -/
theorem front (hp : InUse p (some h) l) (hroom : p.live.card < size) :
    ∃ n p' p'', p.new = some (n, p') ∧ p'.insert none (some h) n = some p'' ∧ n ∉ l ∧
      InUse p'' (some n) (n :: l) := by
  obtain ⟨n, p', f, hnew, hfree, hn, hlive, hprev, hnext, hother⟩ := hp.pool.new hroom
  have hnl : n ∉ l := fun hmem => hn ((hp.mem_iff n).mp hmem)
  have hne : ∀ i ∈ l, i ≠ n := fun i hi he => hnl (he ▸ hi)
  have hold : DList p'.next p'.prev (some h) l := by
    refine hp.list.congr (fun i hi => hother i ((hp.mem_iff i).mp hi)) fun i hi => ?_
    rw [hprev, Function.update_of_ne (hne i hi)]
  have hmem : ∀ i, i ∈ n :: l ↔ i ∈ p'.live := by
    intro i
    rw [hlive, List.mem_cons, Finset.mem_insert, hp.mem_iff]
  refine ⟨n, p', _, hnew, rfl, hnl, hold.cons hnl, hmem, .inr ⟨f, hfree.congr rfl rfl fun i hi => ?_⟩⟩
  refine Function.update_of_ne ?_ _ _
  rintro rfl
  exact hi (hlive ▸ Finset.mem_insert_self ..)

/-- **A live node is taken out of the list, and taken back.** -/
theorem remove (hp : InUse p a (pre ++ x :: post)) :
    InUse ((p.remove x).free x) (if some x = a then p.next x else a) (pre ++ post) := by
  have hx : x ∈ p.live := (hp.mem_iff x).mp (by simp)
  have hnodup := List.nodup_middle.mp hp.list.nodup
  have hxl : x ∉ pre ++ post := (List.nodup_cons.mp hnodup).1
  obtain ⟨f, hf⟩ : ∃ f, FreeList p f := by
    rcases hp.pool with rfl | hf
    · exact absurd hx (Finset.notMem_empty x)
    · exact hf
  -- of the links along the free list none is changed
  have hf' : FreeList (p.remove x) f := by
    refine hf.congr rfl rfl fun i hi => ?_
    have hlast := hp.list.links.2
    change DList.bypass p.next (p.prev x) (p.next x) i = p.next i
    rw [hlast]
    cases hpre : pre.getLast? with
    | none => rfl
    | some y =>
      refine Function.update_of_ne ?_ _ _
      rintro rfl
      exact hi ((hp.mem_iff i).mp (List.mem_append_left _ (List.mem_of_getLast? hpre)))
  have hlist := hp.list.remove
  refine ⟨hlist.congr (fun i hi => Function.update_of_ne ?_ _ _) fun _ _ => rfl, fun i => ?_,
    .inr ⟨_, hf'.free hx⟩⟩
  · rintro rfl
    exact hxl hi
  · change i ∈ pre ++ post ↔ i ∈ p.live.erase x
    rw [Finset.mem_erase, ← hp.mem_iff]
    constructor
    · intro hi
      refine ⟨fun he => hxl (he ▸ hi), ?_⟩
      rw [List.mem_append] at hi ⊢
      exact hi.imp_right (List.mem_cons_of_mem _)
    · rintro ⟨hne, hi⟩
      rw [List.mem_append] at hi ⊢
      exact hi.imp_right fun hi => (List.mem_cons.mp hi).resolve_left hne

end InUse

end LinkList

end Nemu
