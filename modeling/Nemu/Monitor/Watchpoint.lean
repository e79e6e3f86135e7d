/-
# The watchpoint pool

The pool of `watchpoint.c`: 32 entries, linked into a list of active ones and a
list of free ones. A pointer is to an entry of the pool or to `tmp`, the copy of
an entry in the frame of `delete_wp`; after `delete_wp` has returned that one is
dangling, and the model ends where it is followed. What an entry watches (`str`
and `val`) is left out.

`new_wp` keeps the entries on exactly one of the lists. `delete_wp` does not: it
drops the head of the active list, and of any other entry it puts the copy on
the free list. So the pool is conserved in a run if and only if no active entry
is deleted.

Key definitions: `Pool`, `newWp`, `freeWP`, `deleteWp`, `Conserved`, `WpRun`.
Key theorems: `newWp_ok`, `deleteWp_active`, `deleteWp_inactive`,
`wpRun_conserved_iff`.
-/
import Nemu.Lib.Chain
import Mathlib.Data.List.FinRange
import Mathlib.Logic.Function.Basic

namespace Nemu

namespace Watchpoint

/-- An entry of the pool, by its index. -/
abbrev Entry := Fin 32

/-- A pointer that is not null. -/
inductive Ptr where
  | pool (i : Entry)
  | tmp
  deriving DecidableEq

/-- `wp_pool`, `head` and `free_`. -/
structure Pool where
  NO : Entry → ℤ
  next : Entry → Option Ptr
  head : Option Ptr
  free : Option Ptr

/-- `init_wp_pool`. -/
def initWpPool : Pool where
  NO := fun i => i.val
  next := fun i => if h : i.val + 1 < 32 then some (.pool ⟨i.val + 1, h⟩) else none
  head := none
  free := some (.pool 0)

namespace Pool

/-- `w->NO`. -/
def getNO (p : Pool) (w : Ptr) : Option ℤ :=
  match w with
  | .pool i => some (p.NO i)
  | .tmp => none

/-- `w->next`. -/
def getNext (p : Pool) (w : Ptr) : Option (Option Ptr) :=
  match w with
  | .pool i => some (p.next i)
  | .tmp => none

/-- `w->next = v`. -/
def setNext (p : Pool) (w : Ptr) (v : Option Ptr) : Option Pool :=
  match w with
  | .pool i => some { p with next := Function.update p.next i v }
  | .tmp => none

/-- `while (h->next != NULL) h = h->next`; `none` when the steps are used up. -/
def last (p : Pool) : ℕ → Ptr → Option Ptr
  | 0, _ => none
  | fuel + 1, h => do
    match ← p.getNext h with
    | none => some h
    | some h' => p.last fuel h'

/-- `while (h->next != NULL && h->next->NO != NO) h = h->next`. -/
def find (p : Pool) (no : ℤ) : ℕ → Ptr → Option Ptr
  | 0, _ => none
  | fuel + 1, h => do
    match ← p.getNext h with
    | none => some h
    | some h' =>
      if (← p.getNO h') = no then some h else p.find no fuel h'

end Pool

/-- More steps than a list of entries has nodes. -/
def fuel : ℕ := 33

/-- `new_wp`; `none` where the assertion fails. -/
def newWp (p : Pool) : Option (Ptr × Pool) :=
  match p.free with
  | none => none
  | some w => do
    let next ← p.getNext w
    let p := { p with free := next }
    let p ← p.setNext w none
    match p.head with
    | none =>
      let p ← ({ p with head := some w } : Pool).setNext w none
      return (w, p)
    | some h =>
      let h ← p.last fuel h
      let p ← p.setNext h (some w)
      return (w, p)

/-- `free_WP`, of the copy `tmp` with these fields. -/
def freeWP (no : ℤ) (next : Option Ptr) (p : Pool) : Option Pool :=
  match p.head with
  | none => some p
  | some h => do
    if (← p.getNO h) = no then
      let next ← p.getNext h
      return { p with head := next }
    else
      let h ← p.find no fuel h
      match ← p.getNext h with
      | none => return p
      | some _ =>
        let p ← p.setNext h next
        match p.free with
        | none => return p
        | some f =>
          let f ← p.last fuel f
          p.setNext f (some .tmp)

/-- `delete_wp`. -/
def deleteWp (num : ℤ) (p : Pool) : Option (Bool × Pool) :=
  if h : 0 ≤ num ∧ num < 32 then do
    let i : Entry := ⟨num.toNat, by omega⟩
    let p ← freeWP (p.NO i) (p.next i) p
    return (true, p)
  else some (false, p)

/-! ### The lists -/

/-- The link of a pointer; that of `tmp` was set to null. -/
def Pool.link (p : Pool) : Ptr → Option Ptr
  | .pool i => p.next i
  | .tmp => none

/-- The pointers to entries. -/
abbrev ptrs (l : List Entry) : List Ptr := l.map Ptr.pool

/-- The active and the free entries: two lists that end, and every entry is on
exactly one of them. -/
structure Lists (act fr : List Entry) (p : Pool) : Prop where
  numbered : ∀ i, p.NO i = i.val
  active : Seg p.link p.head (ptrs act) none
  free : Seg p.link p.free (ptrs fr) none
  perm : (act ++ fr).Perm (List.finRange 32)

/-- The pool is what it should be. -/
def Conserved (p : Pool) : Prop := ∃ act fr, Lists act fr p

/-- The entry is on the active list. -/
def Active (p : Pool) (i : Entry) : Prop := ∃ act, Seg p.link p.head (ptrs act) none ∧ i ∈ act

section Lists

variable {p p' : Pool} {act fr l l' : List Entry} {i n w x : Entry}

theorem ptrs_injective : Function.Injective ptrs :=
  List.map_injective_iff.mpr fun _ _ h => Ptr.pool.inj h

theorem Lists.nodup (h : Lists act fr p) : (act ++ fr).Nodup := h.perm.nodup_iff.mpr (List.nodup_finRange 32)

theorem Lists.mem (h : Lists act fr p) (i : Entry) : i ∈ act ∨ i ∈ fr :=
  List.mem_append.mp (h.perm.mem_iff.mpr (List.mem_finRange i))

theorem Lists.length (h : Lists act fr p) : act.length + fr.length = 32 := by
  rw [← List.length_append, h.perm.length_eq, List.length_finRange]

/-- An entry is not on both lists. -/
theorem Lists.disjoint (h : Lists act fr p) : ∀ i ∈ act, i ∉ fr :=
  fun _ hi hi' => (List.nodup_append.mp h.nodup).2.2 _ hi _ hi' rfl

theorem Lists.active_iff (h : Lists act fr p) : Active p i ↔ i ∈ act := by
  constructor
  · rintro ⟨act', hact', hi⟩
    rw [ptrs_injective (hact'.unique h.active)] at hi
    exact hi
  · intro hi
    exact ⟨act, h.active, hi⟩

/-- The links of a list are not changed by one of an entry that is not on it. -/
theorem update_of_mem {next : Entry → Option Ptr} {v : Option Ptr} (hx : x ∉ l) (hi : i ∈ l) :
    Function.update next x v i = next i := by
  refine Function.update_of_ne ?_ ..
  rintro rfl
  exact hx hi

theorem init_lists : Lists [] (List.finRange 32) initWpPool where
  numbered _ := rfl
  active := rfl
  free := by decide +kernel
  perm := List.Perm.refl _

/-! ### The loops -/

/-- The loop comes to the last node of a list. -/
theorem last_ok {fuel : ℕ} {h : Ptr} (hseg : Seg p.link (some h) (ptrs (l ++ [x])) none)
    (hfuel : l.length < fuel) : p.last fuel h = some (.pool x) := by
  induction l generalizing fuel h with
  | nil =>
    obtain ⟨fuel, rfl⟩ : ∃ f, fuel = f + 1 := ⟨fuel - 1, by simp at hfuel; omega⟩
    obtain ⟨hh, hnext⟩ := hseg
    obtain rfl := Option.some.inj hh
    have hnull : p.next x = none := hnext
    simp [Pool.last, Pool.getNext, hnull]
  | cons i l ih =>
    obtain ⟨fuel, rfl⟩ : ∃ f, fuel = f + 1 := ⟨fuel - 1, by omega⟩
    obtain ⟨hh, hrest⟩ := hseg
    obtain rfl := Option.some.inj hh
    have hrest : Seg p.link (p.next i) (ptrs (l ++ [x])) none := hrest
    cases hnext : p.next i with
    | none =>
      rw [hnext] at hrest
      cases l <;> exact nomatch hrest.1
    | some h' =>
      rw [hnext] at hrest
      simp only [Pool.last, Pool.getNext, hnext]
      exact ih hrest (by simpa using hfuel)

/-- The loop comes to the node before the one with the number, or to the last. -/
theorem find_ok {fuel : ℕ} {h : Ptr} {rest : List Entry} (hno : ∀ i, p.NO i = i.val)
    (hseg : Seg p.link (some h) (ptrs (l ++ x :: rest)) none) (hn : ∀ i ∈ l ++ [x], i ≠ n)
    (hstop : ∀ i ∈ rest.head?, i = n) (hfuel : l.length < fuel) :
    p.find n.val fuel h = some (.pool x) := by
  induction l generalizing fuel h with
  | nil =>
    obtain ⟨fuel, rfl⟩ : ∃ f, fuel = f + 1 := ⟨fuel - 1, by simp at hfuel; omega⟩
    obtain ⟨hh, hrest⟩ := hseg
    obtain rfl := Option.some.inj hh
    cases rest with
    | nil =>
      have hnext : p.next x = none := hrest
      simp [Pool.find, Pool.getNext, hnext]
    | cons j rest =>
      obtain rfl : j = n := hstop j rfl
      have hnext : p.next x = some (.pool j) := hrest.1
      simp [Pool.find, Pool.getNext, Pool.getNO, hnext, hno]
  | cons i l ih =>
    obtain ⟨fuel, rfl⟩ : ∃ f, fuel = f + 1 := ⟨fuel - 1, by omega⟩
    obtain ⟨hh, hrest⟩ := hseg
    obtain rfl := Option.some.inj hh
    have hrest : Seg p.link (p.next i) (ptrs (l ++ x :: rest)) none := hrest
    obtain ⟨j, k, k', hlist, hj⟩ : ∃ j k k', l ++ x :: rest = j :: k ∧ l ++ [x] = j :: k' := by
      cases l <;> exact ⟨_, _, _, rfl, rfl⟩
    have hnext : p.next i = some (.pool j) := by
      rw [hlist] at hrest
      exact hrest.1
    have hne : j ≠ n := by
      refine hn j (List.mem_cons_of_mem _ ?_)
      change j ∈ l ++ [x]
      rw [hj]
      exact List.mem_cons_self ..
    have hne' : (j.val : ℤ) ≠ n.val := fun he => hne (Fin.ext (by omega))
    rw [hnext] at hrest
    simp only [Pool.find, Pool.getNext, Pool.getNO, hnext, hno, Option.bind_eq_bind, Option.bind_some,
      if_neg hne']
    exact ih hrest (fun k hk => hn k (List.mem_cons_of_mem _ hk)) (by simpa using hfuel)

end Lists

/-! ### The operations -/

section Operations

variable {p : Pool} {act fr : List Entry} {n w : Entry}

theorem link_congr {p' : Pool} {l : List Entry} (heq : ∀ i ∈ l, p'.next i = p.next i) :
    ∀ i ∈ ptrs l, p'.link i = p.link i := by
  intro i hi
  obtain ⟨j, hj, rfl⟩ := List.mem_map.mp hi
  exact heq j hj

/-- The lists after links of nodes that are not on them were changed. -/
theorem Lists.seg_congr {p' : Pool} {a : Option Ptr} {l : List Entry}
    (h : Seg p.link a (ptrs l) none) (heq : ∀ i ∈ l, p'.next i = p.next i) :
    Seg p'.link a (ptrs l) none := h.congr (link_congr heq)

theorem ptrs_concat (l : List Entry) (x : Entry) : ptrs (l ++ [x]) = ptrs l ++ [.pool x] := by
  simp

/-- **`new_wp`** moves the first free entry to the end of the active ones. -/
theorem newWp_ok (h : Lists act (w :: fr) p) :
    ∃ p', newWp p = some (.pool w, p') ∧ Lists (act ++ [w]) fr p' := by
  obtain ⟨hfree, hrest⟩ := h.free
  have hw : w ∉ act := fun hw => h.disjoint w hw (List.mem_cons_self ..)
  have hwfr : w ∉ fr := (List.nodup_cons.mp (List.nodup_append.mp h.nodup).2.1).1
  have hperm : (act ++ [w] ++ fr).Perm (List.finRange 32) := by
    rw [List.append_assoc]
    exact h.perm
  have hlen := h.length
  unfold newWp
  rw [hfree]
  rcases List.eq_nil_or_concat act with rfl | ⟨l, x, rfl⟩
  · have hhead : p.head = none := h.active
    simp only [Pool.getNext, Pool.setNext, hhead, Option.bind_eq_bind, Option.bind_some, Function.update_idem]
    refine ⟨_, rfl, h.numbered, ⟨rfl, ?_⟩, ?_, hperm⟩
    · exact Function.update_self ..
    · exact Lists.seg_congr hrest fun i hi => update_of_mem hwfr hi
  · rw [List.concat_eq_append] at h hw hperm hlen
    have hx : x ≠ w := fun he => hw (he ▸ List.mem_append_right _ (List.mem_singleton_self x))
    have hxfr : x ∉ fr := fun hi => h.disjoint x (List.mem_append_right _ (List.mem_singleton_self x))
      (List.mem_cons_of_mem _ hi)
    have hxl : x ∉ l := by
      have hnodup := (List.nodup_append.mp (List.nodup_append.mp h.nodup).1).2.2
      exact fun hi => hnodup x hi x (List.mem_singleton_self x) rfl
    obtain ⟨k, hk⟩ : ∃ k, p.head = some k := by
      have hact := h.active
      cases l <;> exact ⟨_, hact.1⟩
    let p₁ : Pool := ⟨p.NO, Function.update p.next w none, some k, p.next w⟩
    have hactive : Seg p₁.link p.head (ptrs (l ++ [x])) none :=
      Lists.seg_congr h.active fun i hi => update_of_mem hw hi
    rw [hk] at hactive
    have hlast : Pool.last ⟨p.NO, Function.update p.next w none, some k, p.next w⟩ fuel k = some (.pool x) :=
      last_ok hactive (by
      simp only [List.length_append, List.length_cons] at hlen
      rw [fuel]
      omega)
    simp only [Pool.getNext, Pool.setNext, hk, Option.bind_eq_bind, Option.bind_some, hlast]
    refine ⟨_, rfl, h.numbered, ?_, ?_, ?_⟩
    · rw [List.concat_eq_append, ptrs_concat, ptrs_concat]
      rw [ptrs_concat] at hactive
      refine hactive.concat (link_congr fun i hi => ?_) (Function.update_self ..) ?_
      · exact update_of_mem hxl hi
      · change Function.update (Function.update p.next w none) x _ w = none
        rw [Function.update_of_ne hx.symm, Function.update_self]
    · refine Lists.seg_congr hrest fun i hi => ?_
      change Function.update (Function.update p.next w none) x _ i = p.next i
      rw [update_of_mem hxfr hi, update_of_mem hwfr hi]
    · rw [List.concat_eq_append]
      exact hperm

theorem newWp_full (h : Lists act [] p) : newWp p = none := by
  have hfree : p.free = none := h.free
  unfold newWp
  rw [hfree]

/-- The entry that `delete_wp` looks up. -/
theorem deleteWp_entry (n : Entry) (p : Pool) :
    deleteWp n.val p = (freeWP (p.NO n) (p.next n) p).map fun p' => (true, p') := by
  have hn : 0 ≤ (n.val : ℤ) ∧ (n.val : ℤ) < 32 := by omega
  rw [deleteWp, dif_pos hn]
  simp only [Int.toNat_natCast, Fin.eta]
  cases freeWP (p.NO n) (p.next n) p <;> rfl

/-- **`delete_wp` of an entry that is not active** changes nothing. -/
theorem deleteWp_inactive (h : Lists act fr p) (hn : n ∉ act) : deleteWp n.val p = some (true, p) := by
  have hlen := h.length
  rw [deleteWp_entry, freeWP]
  rcases List.eq_nil_or_concat act with rfl | ⟨l, x, rfl⟩
  · have hhead : p.head = none := h.active
    rw [hhead]
    rfl
  · rw [List.concat_eq_append] at h hn hlen
    obtain ⟨k, r, hk⟩ : ∃ k r, l ++ [x] = k :: r := by cases l <;> exact ⟨_, _, rfl⟩
    have hactive := h.active
    have hhead : p.head = some (.pool k) := by
      rw [hk] at hactive
      exact hactive.1
    have hne : k ≠ n := fun he => hn (he ▸ hk ▸ List.mem_cons_self ..)
    have hne' : (k.val : ℤ) ≠ n.val := fun he => hne (Fin.ext (by omega))
    rw [hhead] at hactive
    have hnull : p.next x = none := by
      rw [ptrs_concat] at hactive
      exact hactive.next_last
    have hfind : p.find n.val fuel (.pool k) = some (.pool x) := find_ok h.numbered hactive
      (fun i hi => ne_of_mem_of_not_mem hi hn) (fun i hi => nomatch hi) (by
        simp only [List.length_append, List.length_cons] at hlen
        rw [fuel]
        omega)
    rw [hhead]
    simp only [Pool.getNO, Pool.getNext, h.numbered, Option.bind_eq_bind, Option.bind_some, if_neg hne',
      hfind, hnull]
    rfl

/-- An entry is lost when it is on neither list. -/
theorem not_conserved_of_lost {p' : Pool} (hnact : n ∉ act) (hnfr : n ∉ fr)
    (hact : Seg p'.link p'.head (ptrs act) none) (hfree : Seg p'.link p'.free (ptrs fr) none) :
    ¬ Conserved p' := by
  rintro ⟨act', fr', h'⟩
  rcases h'.mem n with hmem | hmem
  · exact hnact (ptrs_injective (h'.active.unique hact) ▸ hmem)
  · exact hnfr (ptrs_injective (h'.free.unique hfree) ▸ hmem)

/-- The copy is no entry. -/
theorem not_conserved_of_tmp {p' : Pool} {l : List Ptr} (hfree : Seg p'.link p'.free l none)
    (htmp : Ptr.tmp ∈ l) : ¬ Conserved p' := by
  rintro ⟨act', fr', h'⟩
  rw [← h'.free.unique hfree] at htmp
  obtain ⟨j, -, hj⟩ := List.mem_map.mp htmp
  exact nomatch hj

/-- The head is dropped. -/
theorem deleteWp_head {l : List Entry} (h : Lists (n :: l) fr p) :
    ∃ p', deleteWp n.val p = some (true, p') ∧ ¬ Conserved p' := by
  have hhead : p.head = some (.pool n) := h.active.1
  have hnl : n ∉ l := (List.nodup_cons.mp (List.nodup_append.mp h.nodup).1).1
  rw [deleteWp_entry, freeWP, hhead]
  simp only [Pool.getNO, Pool.getNext, h.numbered, Option.bind_eq_bind, Option.bind_some, if_true]
  exact ⟨_, rfl, not_conserved_of_lost hnl (h.disjoint n (List.mem_cons_self ..)) h.active.2 h.free⟩

section Inner

variable {l l' : List Entry} {x : Entry}

theorem apart_of_nodup (h : (l ++ x :: n :: l').Nodup) : n ∉ l ++ x :: l' ∧ x ∉ l ++ l' := by
  have hsplit : l ++ x :: n :: l' = (l ++ [x]) ++ n :: l' := by simp
  rw [hsplit, List.nodup_middle, List.append_assoc, List.singleton_append, List.nodup_cons,
    List.nodup_middle, List.nodup_cons] at h
  exact ⟨h.1, h.2.1⟩

/-- The loop of `free_WP` comes to the entry before. -/
theorem find_inner (h : Lists (l ++ x :: n :: l') fr p) : ∃ k, p.head = some (.pool k) ∧ k ≠ n ∧
    p.find n.val fuel (.pool k) = some (.pool x) ∧ p.next x = some (.pool n) := by
  have hactive := h.active
  have hlen := h.length
  obtain ⟨hn, -⟩ := apart_of_nodup (List.nodup_append.mp h.nodup).1
  have hne : ∀ i ∈ l ++ [x], i ≠ n := by
    rintro i hi rfl
    refine hn ?_
    rw [List.append_cons]
    exact List.mem_append_left _ hi
  obtain ⟨k, r, hk, hkmem⟩ : ∃ k r, l ++ x :: n :: l' = k :: r ∧ k ∈ l ++ [x] := by
    cases l with
    | nil => exact ⟨_, _, rfl, List.mem_singleton_self x⟩
    | cons y l => exact ⟨_, _, rfl, List.mem_cons_self ..⟩
  have hhead : p.head = some (.pool k) := by
    rw [hk] at hactive
    exact hactive.1
  have hstop : ∀ i ∈ (n :: l').head?, i = n := fun i hi => (Option.some.inj hi).symm
  have hfind : p.find n.val fuel (.pool k) = some (.pool x) :=
    find_ok h.numbered (hhead ▸ hactive) hne hstop (by
      simp only [List.length_append, List.length_cons] at hlen
      rw [fuel]
      omega)
  have hseg : Seg p.link p.head (ptrs l ++ .pool x :: .pool n :: ptrs l') none := by
    simpa using hactive
  obtain ⟨c, -, hc⟩ := Seg.append.mp hseg
  exact ⟨k, hhead, hne k hkmem, hfind, hc.2.1⟩

/-- The active list goes round the entry. -/
theorem Lists.active_round (h : Lists (l ++ x :: n :: l') fr p) {p' : Pool} (hhead : p'.head = p.head)
    (hx : p'.next x = p.next n) (hother : ∀ i ∈ l ++ l', p'.next i = p.next i) :
    Seg p'.link p'.head (ptrs (l ++ x :: l')) none := by
  have hseg : Seg p.link p'.head (ptrs l ++ .pool x :: .pool n :: ptrs l') none := by
    rw [hhead]
    simpa using h.active
  have hround := hseg.unlink (link_congr fun i hi => hother i (List.mem_append_left _ hi))
    (link_congr fun i hi => hother i (List.mem_append_right _ hi)) hx
  simpa using hround

/-- An entry behind the head: the list goes round it, and the copy is put on the free
list, if there is one. -/
theorem deleteWp_inner (h : Lists (l ++ x :: n :: l') fr p) :
    ∃ p', deleteWp n.val p = some (true, p') ∧ ¬ Conserved p' := by
  obtain ⟨k, hhead, hkn, hfind, hnext⟩ := find_inner h
  obtain ⟨hn, hx⟩ := apart_of_nodup (List.nodup_append.mp h.nodup).1
  have hkn' : (k.val : ℤ) ≠ n.val := fun he => hkn (Fin.ext (by omega))
  have hxfr : x ∉ fr := h.disjoint x (List.mem_append_right _ (List.mem_cons_self ..))
  rw [deleteWp_entry, freeWP, hhead]
  simp only [Pool.getNO, Pool.getNext, Pool.setNext, h.numbered, Option.bind_eq_bind, Option.bind_some,
    if_neg hkn', hfind, hnext]
  rcases List.eq_nil_or_concat fr with rfl | ⟨g, y, rfl⟩
  · have hfree : p.free = none := h.free
    rw [hfree]
    have hnil : n ∉ ([] : List Entry) := List.not_mem_nil
    refine ⟨_, rfl, not_conserved_of_lost hn hnil ?_ rfl⟩
    exact h.active_round rfl (Function.update_self ..) fun i hi => update_of_mem hx hi
  · have hlen := h.length
    rw [List.concat_eq_append] at h hlen hxfr
    obtain ⟨f, hf⟩ : ∃ f, p.free = some f := by
      have hfree := h.free
      cases g <;> exact ⟨_, hfree.1⟩
    let p₁ : Pool := ⟨p.NO, Function.update p.next x (p.next n), p.head, some f⟩
    have hfree : Seg p₁.link p.free (ptrs (g ++ [y])) none :=
      Lists.seg_congr h.free fun i hi => update_of_mem hxfr hi
    rw [hf] at hfree
    have hlast : p₁.last fuel f = some (.pool y) := last_ok hfree (by
      simp only [List.length_append, List.length_cons] at hlen
      rw [fuel]
      omega)
    rw [hf]
    simp only [p₁] at hlast
    simp only [hlast]
    -- the free list now ends in the copy
    have hyg : y ∉ g := fun hi =>
      (List.nodup_append.mp (List.nodup_append.mp h.nodup).2.1).2.2 y hi y (List.mem_singleton_self y) rfl
    rw [ptrs_concat] at hfree
    let p₂ : Pool := { p₁ with next := Function.update p₁.next y (some .tmp) }
    have htmp : Seg p₂.link (some f) (ptrs g ++ [.pool y] ++ [.tmp]) none :=
      hfree.concat (link_congr fun i hi => update_of_mem hyg hi) (Function.update_self ..) rfl
    exact ⟨_, rfl, not_conserved_of_tmp htmp (List.mem_append_right _ (List.mem_singleton_self _))⟩

end Inner

/-- **`delete_wp` of an active entry** loses it. -/
theorem deleteWp_active (h : Lists act fr p) (hn : n ∈ act) :
    ∃ p', deleteWp n.val p = some (true, p') ∧ ¬ Conserved p' := by
  obtain ⟨l, l', rfl⟩ := List.append_of_mem hn
  rcases List.eq_nil_or_concat l with rfl | ⟨l, x, rfl⟩
  · exact deleteWp_head h
  · have hlist : l.concat x ++ n :: l' = l ++ x :: n :: l' := by simp
    rw [hlist] at h
    exact deleteWp_inner h

end Operations

/-! ### Runs -/

/-- The commands of the debugger that change the pool. -/
inductive Op where
  | new
  | delete (num : ℤ)

def step (op : Op) (p : Pool) : Option Pool :=
  match op with
  | .new => (newWp p).map (·.2)
  | .delete num => (deleteWp num p).map (·.2)

/-- A run after `init_wp_pool`: the steps so far, each with the pool before it,
and the pool. -/
inductive WpRun : List (Pool × Op) → Pool → Prop where
  | init : WpRun [] initWpPool
  | step {log : List (Pool × Op)} {p p' : Pool} {op : Op} (h : WpRun log p)
      (hstep : step op p = some p') : WpRun (log ++ [(p, op)]) p'

/-- The deletion of an active entry. -/
def Loses (op : Op) (p : Pool) : Prop := ∃ n : Entry, op = .delete n.val ∧ Active p n

/-- What the operations do to a pool that is conserved: `new_wp` takes a free
entry, and fails when there is none; the deletion of what is not active changes
nothing. -/
structure Operates (p : Pool) : Prop where
  new_fails : step .new p = none ↔ ∀ n, Active p n
  new_moves : ∀ w p', newWp p = some (w, p') →
    ∃ n, w = .pool n ∧ ¬ Active p n ∧ ∀ i, Active p' i ↔ i = n ∨ Active p i
  delete_keeps : ∀ num, ¬ Loses (.delete num) p → step (.delete num) p = some p

section Runs

variable {p p' : Pool} {op : Op} {log : List (Pool × Op)}

theorem operates (h : Conserved p) : Operates p := by
  obtain ⟨act, fr, h⟩ := h
  refine ⟨?_, ?_, ?_⟩
  · cases fr with
    | nil =>
      refine iff_of_true (by rw [step, newWp_full h]; rfl) fun n => h.active_iff.mpr ?_
      exact (h.mem n).resolve_right fun hn => nomatch hn
    | cons w fr =>
      obtain ⟨p', hrun, -⟩ := newWp_ok h
      refine iff_of_false (by rw [step, hrun]; exact nofun) fun hall => ?_
      exact h.disjoint w (h.active_iff.mp (hall w)) (List.mem_cons_self ..)
  · intro w p' hrun
    cases fr with
    | nil =>
      rw [newWp_full h] at hrun
      exact nomatch hrun
    | cons n fr =>
      obtain ⟨q, hrun', hq⟩ := newWp_ok h
      rw [hrun'] at hrun
      obtain ⟨rfl, rfl⟩ := Prod.mk.inj (Option.some.inj hrun)
      refine ⟨n, rfl, fun hn => ?_, fun i => ?_⟩
      · exact h.disjoint n (h.active_iff.mp hn) (List.mem_cons_self ..)
      · rw [hq.active_iff, h.active_iff, List.mem_append, List.mem_singleton]
        exact or_comm
  · intro num hkeep
    by_cases hnum : 0 ≤ num ∧ num < 32
    · obtain ⟨n, rfl⟩ : ∃ n : Entry, num = n.val := ⟨⟨num.toNat, by omega⟩, by simp; omega⟩
      have hn : n ∉ act := fun hn => hkeep ⟨n, rfl, h.active_iff.mpr hn⟩
      rw [step, deleteWp_inactive h hn]
      rfl
    · rw [step, deleteWp, dif_neg hnum]
      rfl

/-- **One step.** It conserves the pool if and only if it does not delete an
active entry. -/
theorem step_conserved_iff (h : Conserved p) (hstep : step op p = some p') :
    Conserved p' ↔ ¬ Loses op p := by
  obtain ⟨act, fr, hl⟩ := h
  cases op with
  | new =>
    refine iff_of_true ?_ fun ⟨n, hn, _⟩ => nomatch hn
    cases fr with
    | nil =>
      rw [step, newWp_full hl] at hstep
      exact nomatch hstep
    | cons w fr =>
      obtain ⟨q, hrun, hq⟩ := newWp_ok hl
      rw [step, hrun] at hstep
      obtain rfl := Option.some.inj hstep
      exact ⟨_, _, hq⟩
  | delete num =>
    by_cases hlose : Loses (.delete num) p
    · refine iff_of_false ?_ fun hk => hk hlose
      obtain ⟨n, hn, hactive⟩ := hlose
      obtain rfl := Op.delete.inj hn
      obtain ⟨q, hrun, hq⟩ := deleteWp_active hl (hl.active_iff.mp hactive)
      rw [step, hrun] at hstep
      obtain rfl := Option.some.inj hstep
      exact hq
    · refine iff_of_true ?_ hlose
      have hkeep := (operates ⟨act, fr, hl⟩).delete_keeps num hlose
      obtain rfl := Option.some.inj (hkeep.symm.trans hstep)
      exact ⟨act, fr, hl⟩

/-- **The watchpoint pool.** It is conserved in every state of a run if and only
if no active entry is deleted in it; and while it is conserved, the operations do
what they should. -/
theorem wpRun_conserved_iff (h : WpRun log p) :
    (((∀ x ∈ log, Conserved x.1) ∧ Conserved p) ↔ ∀ x ∈ log, ¬ Loses x.2 x.1) ∧
    (Conserved p → Operates p) := by
  refine ⟨?_, operates⟩
  induction h with
  | init =>
    have hnil : ∀ {Q : Pool × Op → Prop}, ∀ x ∈ ([] : List (Pool × Op)), Q x :=
      fun _ hx => (List.not_mem_nil hx).elim
    exact iff_of_true ⟨hnil, _, _, init_lists⟩ hnil
  | @step log p p' op h hstep ih =>
    have hlast : ∀ {Q : Pool × Op → Prop},
        (∀ x ∈ log ++ [(p, op)], Q x) ↔ (∀ x ∈ log, Q x) ∧ Q (p, op) := by
      intro Q
      simp [or_imp, forall_and]
    rw [hlast, hlast, ← ih]
    constructor
    · rintro ⟨⟨hall, hp⟩, hp'⟩
      exact ⟨⟨hall, hp⟩, (step_conserved_iff hp hstep).mp hp'⟩
    · rintro ⟨⟨hall, hp⟩, hkeep⟩
      exact ⟨⟨hall, hp⟩, (step_conserved_iff hp hstep).mpr hkeep⟩

end Runs

/-- The pool after the commands. -/
def played (ops : List Op) : Pool := ops.foldl (fun p op => (step op p).getD p) initWpPool

theorem wpRun_played {log : List (Pool × Op)} {ops : List Op} (h : WpRun log (played ops)) (op : Op)
    (hstep : (step op (played ops)).isSome) : WpRun (log ++ [(played ops, op)]) (played (ops ++ [op])) := by
  obtain ⟨q, hq⟩ := Option.isSome_iff_exists.mp hstep
  have hlast : played (ops ++ [op]) = q := by
    rw [played, List.foldl_append, ← played, List.foldl_cons, List.foldl_nil, hq, Option.getD_some]
  exact hlast ▸ h.step hq

/-- Two watchpoints are set, one that is not set is deleted, and then the second one is. -/
theorem wpRun_conserved_iff_delete :
    Conserved (played [.new, .new, .delete 7]) ∧ Operates (played [.new, .new, .delete 7]) ∧
      ¬ Conserved (played [.new, .new, .delete 7, .delete 1]) := by
  have h₀ : WpRun [] (played []) := .init
  have h₁ := wpRun_played h₀ .new (by decide +kernel)
  have h₂ := wpRun_played h₁ .new (by decide +kernel)
  have h₃ := wpRun_played h₂ (.delete 7) (by decide +kernel)
  have h₄ := wpRun_played h₃ (.delete 1) (by decide +kernel)
  have hkeep : ∀ x ∈ [(played [], Op.new), (played [.new], .new), (played [.new, .new], .delete 7)], ¬ Loses x.2 x.1 := by
    simp only [List.forall_mem_cons, List.not_mem_nil, IsEmpty.forall_iff, implies_true, and_true]
    refine ⟨fun ⟨_, h, _⟩ => (nomatch h), fun ⟨_, h, _⟩ => (nomatch h), ?_⟩
    rintro ⟨n, hn, act, hseg, hmem⟩
    have hact : act = [0, 1] := ptrs_injective (hseg.unique (by decide +kernel))
    have hnumber : (7 : ℤ) = n.val := Op.delete.inj hn
    clear hn
    subst hact
    revert n
    decide
  obtain ⟨hiff, hop⟩ := wpRun_conserved_iff h₃
  obtain ⟨-, hlast⟩ := hiff.mpr hkeep
  refine ⟨hlast, hop hlast, fun hconserved => ?_⟩
  obtain ⟨hall, -⟩ := hiff.mpr hkeep
  have hloses : ¬ Loses (.delete 1) (played [.new, .new, .delete 7]) := by
    refine (wpRun_conserved_iff h₄).1.mp ⟨fun x hx => ?_, hconserved⟩ _ (List.mem_append_right _ (List.mem_singleton_self _))
    rcases List.mem_append.mp hx with hx | hx
    · exact hall x hx
    · rw [List.mem_singleton.mp hx]
      exact hlast
  exact hloses ⟨1, rfl, [0, 1], by decide +kernel, by decide⟩

/-- A watchpoint is set and deleted: entry 0 is on neither list. -/
theorem delete_loses_entry :
    let p₁ := (step .new initWpPool).getD initWpPool
    let p₂ := (step (.delete 0) p₁).getD p₁
    WpRun [(initWpPool, .new), (p₁, .delete 0)] p₂ ∧ ¬ Conserved p₂ := by
  have hnew : step .new initWpPool = some ((step .new initWpPool).getD initWpPool) := rfl
  refine ⟨.step (.step .init hnew) rfl, ?_⟩
  rintro ⟨act, fr, h⟩
  have hact : act = [] := ptrs_injective (h.active.unique rfl)
  have hfr : fr = (List.finRange 32).tail := by
    refine ptrs_injective (h.free.unique ?_)
    decide +kernel
  rcases h.mem 0 with hmem | hmem
  · rw [hact] at hmem
    exact nomatch hmem
  · rw [hfr] at hmem
    revert hmem
    decide

end Watchpoint

end Nemu
