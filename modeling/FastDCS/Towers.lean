import FastDCS.Heaps

/-!
Lists of towers on a heap. A tower of height `h` has a pointer for each level below
`h`, to the next tower that is higher than the level.
-/

namespace FastDCS.Towers

open Heaps

universe u

structure Node (β : Type u) where
  value : β
  forward : List (Option Nat)

/-- A tower as it stands in a list: its node, what the node holds, and its height. -/
structure Entry (β : Type u) where
  id : Nat
  value : β
  height : Nat

variable {β : Type u}

def forward? (nodes : Heap (Node β)) (p level : Nat) : Option (Option Nat) :=
  (nodes.find? p).bind fun node => node.forward[level]?

/-- Write one pointer of a tower that has it. -/
def setForward (nodes : Heap (Node β)) (p level : Nat) (q : Option Nat) :
    Option (Heap (Node β)) :=
  (nodes.find? p).bind fun node =>
    if level < node.forward.length then
      nodes.write p { node with forward := node.forward.set level q }
    else none

/-- The first of the towers that is higher than the level. -/
def succAt (level : Nat) (entries : List (Entry β)) : Option Nat :=
  (entries.find? fun e => decide (level < e.height)).map Entry.id

/-- The node of a tower whose pointers are given by the level. -/
def Entry.node (e : Entry β) (next : Nat → Option Nat) : Node β :=
  ⟨e.value, (List.range e.height).map next⟩

/-- The heap has the nodes of the towers, and those that are the last of their level
point where `tail` says. -/
def HoldsTo (nodes : Heap (Node β)) : List (Entry β) → (Nat → Option Nat) → Prop
  | [], _ => True
  | e :: rest, tail =>
      nodes.find? e.id = some (e.node fun level => (succAt level rest).or (tail level)) ∧
        HoldsTo nodes rest tail

/-- `p` is the last of the towers that is higher than the level. -/
def IsLastAt (level : Nat) (entries : List (Entry β)) (p : Nat) : Prop :=
  ∃ before e behind, entries = before ++ e :: behind ∧ e.id = p ∧ level < e.height ∧
    ∀ z ∈ behind, z.height ≤ level

/-- The nodes that a level reaches from a pointer on. -/
def Chain (nodes : Heap (Node β)) (level : Nat) : Option Nat → List Nat → Prop
  | p, [] => p = none
  | p, q :: rest => p = some q ∧ ∃ next, forward? nodes q level = some next ∧
      Chain nodes level next rest

variable {nodes nodes' : Heap (Node β)} {A B : List (Entry β)} {e : Entry β}
  {tail tail' : Nat → Option Nat} {level p : Nat} {q : Option Nat}

theorem succAt_cons : succAt level (e :: A) =
    if level < e.height then some e.id else succAt level A := by
  rw [succAt, succAt, List.find?_cons]
  by_cases h : level < e.height
  · rw [decide_eq_true h, if_pos h]
    rfl
  · rw [decide_eq_false h, if_neg h]

theorem succAt_append : succAt level (A ++ B) = (succAt level A).or (succAt level B) := by
  rw [succAt, succAt, succAt, List.find?_append, Option.map_or]

theorem succAt_eq_none_iff : succAt level A = none ↔ ∀ e ∈ A, e.height ≤ level := by
  rw [succAt, Option.map_eq_none_iff, List.find?_eq_none]
  simp only [decide_eq_true_eq, Nat.not_lt]

/-- Where a level goes on, the towers up to there are too low for it. -/
theorem succAt_eq_some (h : succAt level A = some p) :
    ∃ before e behind, A = before ++ e :: behind ∧ e.id = p ∧ level < e.height ∧
      ∀ z ∈ before, z.height ≤ level := by
  obtain ⟨e, hfind, hid⟩ := Option.map_eq_some_iff.mp h
  obtain ⟨hheight, before, behind, hA, hbefore⟩ := List.find?_eq_some_iff_append.mp hfind
  refine ⟨before, e, behind, hA, hid, of_decide_eq_true hheight, fun z hz => ?_⟩
  have hlow := hbefore z hz
  rw [Bool.not_eq_true', decide_eq_false_iff_not, Nat.not_lt] at hlow
  exact hlow

theorem node_forward (e : Entry β) (next : Nat → Option Nat) (h : level < e.height) :
    (e.node next).forward[level]? = some (next level) := by
  simp [Entry.node, h]

theorem node_congr {next next' : Nat → Option Nat}
    (h : ∀ level < e.height, next level = next' level) : e.node next = e.node next' := by
  rw [Entry.node, Entry.node]
  congr 1
  exact List.map_congr_left fun level hlevel => h level (List.mem_range.mp hlevel)

theorem holdsTo_append : HoldsTo nodes (A ++ B) tail ↔
    HoldsTo nodes A (fun level => (succAt level B).or (tail level)) ∧ HoldsTo nodes B tail := by
  induction A with
  | nil => exact ⟨fun h => ⟨trivial, h⟩, And.right⟩
  | cons e A ih =>
      rw [List.cons_append, HoldsTo, HoldsTo, ih, and_assoc]
      simp only [succAt_append, Option.or_assoc]

theorem HoldsTo.congr (h : HoldsTo nodes A tail)
    (htail : ∀ e ∈ A, ∀ level < e.height, tail level = tail' level) : HoldsTo nodes A tail' := by
  induction A with
  | nil => trivial
  | cons e A ih =>
      refine ⟨?_, ih h.2 fun z hz => htail z (List.mem_cons_of_mem _ hz)⟩
      rw [h.1]
      congr 1
      refine node_congr fun level hlevel => ?_
      rw [htail e List.mem_cons_self level hlevel]

theorem HoldsTo.of_find?_eq (h : HoldsTo nodes A tail)
    (hsame : ∀ e ∈ A, nodes'.find? e.id = nodes.find? e.id) : HoldsTo nodes' A tail := by
  induction A with
  | nil => trivial
  | cons e A ih =>
      refine ⟨?_, ih h.2 fun z hz => hsame z (List.mem_cons_of_mem _ hz)⟩
      rw [hsame e List.mem_cons_self]
      exact h.1

theorem HoldsTo.find? (h : HoldsTo nodes A tail) (he : e ∈ A) :
    ∃ next, nodes.find? e.id = some (e.node next) := by
  induction A with
  | nil => exact absurd he List.not_mem_nil
  | cons z A ih =>
      rcases List.mem_cons.mp he with rfl | he
      · exact ⟨_, h.1⟩
      · exact ih h.2 he

/-- What a tower points to is the next of the towers behind it. -/
theorem HoldsTo.forward? {before behind : List (Entry β)}
    (h : HoldsTo nodes (before ++ e :: behind) tail) (hlevel : level < e.height) :
    forward? nodes e.id level = some ((succAt level behind).or (tail level)) := by
  rw [Towers.forward?, (holdsTo_append.mp h).2.1, Option.bind_some, node_forward e _ hlevel]

theorem HoldsTo.forward?_of_isLastAt (h : HoldsTo nodes A tail) (hlast : IsLastAt level A p) :
    Towers.forward? nodes p level = some (tail level) := by
  obtain ⟨before, e, behind, rfl, rfl, hlevel, hlow⟩ := hlast
  rw [h.forward? hlevel, succAt_eq_none_iff.mpr hlow, Option.none_or]

theorem set_map_range (next : Nat → Option Nat) (height level : Nat) (q : Option Nat) :
    ((List.range height).map next).set level q =
      (List.range height).map (Function.update next level q) := by
  apply List.ext_getElem
  · rw [List.length_set, List.length_map, List.length_map]
  · intro i h₁ h₂
    rw [List.getElem_set, List.getElem_map, List.getElem_range, List.getElem_map,
      List.getElem_range, Function.update_apply]
    split_ifs with heq hne hne
    · rfl
    · exact absurd heq.symm hne
    · exact absurd hne.symm heq
    · rfl

theorem exists_setForward {next : Nat → Option Nat} (h : nodes.find? e.id = some (e.node next))
    (hlevel : level < e.height) (q : Option Nat) :
    ∃ nodes', setForward nodes e.id level q = some nodes' ∧
      nodes'.find? e.id = some (e.node (Function.update next level q)) ∧
      ∀ i, i ≠ e.id → nodes'.find? i = nodes.find? i := by
  have hlength : level < (e.node next).forward.length := by
    rw [Entry.node, List.length_map, List.length_range]
    exact hlevel
  obtain ⟨nodes', hwrite⟩ := nodes.exists_write
    { e.node next with forward := (e.node next).forward.set level q } (p := e.id)
    (by rw [h]; rfl)
  refine ⟨nodes', ?_, ?_, fun i hi => ?_⟩
  · rw [setForward, h, Option.bind_some, if_pos hlength, hwrite]
  · rw [Heap.find?_write hwrite, if_pos rfl, Entry.node, Entry.node]
    show some (Node.mk e.value (((List.range e.height).map next).set level q)) = _
    rw [set_map_range]
  · rw [Heap.find?_write hwrite, if_neg hi]

/-- Writing the pointer of the last tower of a level changes where the level goes. -/
theorem HoldsTo.setForward (h : HoldsTo nodes A tail) (hnodup : (A.map Entry.id).Nodup)
    (hlast : IsLastAt level A p) (q : Option Nat) :
    ∃ nodes', Towers.setForward nodes p level q = some nodes' ∧
      HoldsTo nodes' A (Function.update tail level q) ∧
      ∀ i, i ∉ A.map Entry.id → nodes'.find? i = nodes.find? i := by
  obtain ⟨before, e, behind, rfl, rfl, hlevel, hlow⟩ := hlast
  obtain ⟨hbefore, hnode, hbehind⟩ := holdsTo_append.mp h
  rw [List.map_append, List.map_cons, List.nodup_append, List.nodup_cons] at hnodup
  obtain ⟨-, ⟨hnotBehind, -⟩, hnotBefore⟩ := hnodup
  obtain ⟨nodes', hset, hwritten, hsame⟩ := exists_setForward hnode hlevel q
  refine ⟨nodes', hset, holdsTo_append.mpr ⟨?_, ?_, ?_⟩, fun i hi => hsame i ?_⟩
  · refine HoldsTo.of_find?_eq (hbefore.congr fun z _ k _ => ?_) fun z hz => hsame _ ?_
    · rw [succAt_cons]
      split_ifs with hk
      · rfl
      · have hne : k ≠ level := by
          rintro rfl
          exact hk hlevel
        rw [Function.update_of_ne hne]
    · intro heq
      exact hnotBefore z.id (List.mem_map_of_mem hz) e.id List.mem_cons_self heq
  · rw [hwritten]
    congr 1
    refine node_congr fun k _ => ?_
    rw [Function.update_apply, Function.update_apply]
    split_ifs with heq
    · rw [heq, succAt_eq_none_iff.mpr hlow, Option.none_or]
    · rfl
  · refine HoldsTo.of_find?_eq (hbehind.congr fun z hz k hk => ?_) fun z hz => hsame _ ?_
    · have hne : k ≠ level := by
        rintro rfl
        exact Nat.not_le_of_lt hk (hlow z hz)
      rw [Function.update_of_ne hne]
    · intro heq
      exact hnotBehind (heq ▸ List.mem_map_of_mem hz)
  · rintro rfl
    exact hi (List.mem_map_of_mem (List.mem_append_right _ List.mem_cons_self))

/-- A level reaches the towers that are higher than it, in their order. -/
theorem HoldsTo.chain (h : HoldsTo nodes A fun _ => none) (level : Nat) :
    Chain nodes level (succAt level A)
      ((A.filter fun e => decide (level < e.height)).map Entry.id) := by
  induction A with
  | nil => rfl
  | cons e A ih =>
      rw [succAt_cons, List.filter_cons]
      by_cases hlevel : level < e.height
      · rw [if_pos hlevel, decide_eq_true hlevel, if_pos rfl]
        refine ⟨rfl, succAt level A, ?_, ih h.2⟩
        have hfirst : HoldsTo nodes ([] ++ e :: A) fun _ => none := h
        rw [hfirst.forward? hlevel, Option.or_none]
      · rw [if_neg hlevel, decide_eq_false hlevel, if_neg Bool.false_ne_true]
        exact ih h.2

/-- Each level is part of the one below. -/
theorem sublist_level (A : List (Entry β)) (level : Nat) :
    ((A.filter fun e => decide (level + 1 < e.height)).map Entry.id).Sublist
      ((A.filter fun e => decide (level < e.height)).map Entry.id) := by
  refine List.Sublist.map _ (List.monotone_filter_right A fun e h => ?_)
  rw [decide_eq_true_eq] at h ⊢
  exact Nat.lt_of_succ_lt h

/-- What every turn of a loop over the numbers below `n` keeps. -/
theorem exists_foldlM_range {γ : Type u} {f : γ → Nat → Option γ} {P : Nat → γ → Prop} {s : γ}
    (n : Nat) (hstart : P 0 s)
    (hstep : ∀ k < n, ∀ s, P k s → ∃ s', f s k = some s' ∧ P (k + 1) s') :
    ∃ s', (List.range n).foldlM f s = some s' ∧ P n s' := by
  induction n with
  | zero => exact ⟨s, rfl, hstart⟩
  | succ n ih =>
      obtain ⟨t, hloop, ht⟩ := ih fun k hk => hstep k (Nat.lt_succ_of_lt hk)
      obtain ⟨s', hturn, hs'⟩ := hstep n (Nat.lt_succ_self n) t ht
      refine ⟨s', ?_, hs'⟩
      rw [List.range_succ, List.foldlM_append, hloop]
      show (f t n).bind pure = some s'
      rw [hturn]
      rfl

end FastDCS.Towers
