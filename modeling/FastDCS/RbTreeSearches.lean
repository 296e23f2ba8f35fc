import FastDCS.HashRings
import FastDCS.RbTreeRemoval

/-!
The functions of `util_rbtree.c` that only read the tree: the searches, the way through
it in order, and the check of the whole.
-/

namespace FastDCS.RbTrees

open FastDCS.Handlers
open FastDCS.Heaps
open FastDCS.SearchTrees
open FastDCS.SearchTrees.SearchTree
open FastDCS.LinkedTrees
open FastDCS.RedBlackTrees
open FastDCS.MachineIntegers

variable {α : Type} {s t : UtilRbtree α} {E : Fault → Prop} {null turns : Nat}
  {tree left right : Tree α} {rootParent below : Option Nat} {e : Placed (RbItem α)}
  {key : Int} {n : Nat} {color : Color}

/-- What a walk over the tree needs. -/
structure Readable (null : Nat) (s : UtilRbtree α) (below : Option Nat) (tree : Tree α) :
    Prop where
  null_eq : s.null = null
  held : Held s.nodes null below tree
  null_notMem : null ∉ ptrs tree

namespace Readable

theorem find? (h : Readable null s below (.node left e right)) :
    s.nodes.find? e.ptr = some ⟨e.item, below, some (top null left), some (top null right)⟩ :=
  h.held.1

theorem toLeft (h : Readable null s below (.node left e right)) :
    Readable null s (some e.ptr) left :=
  ⟨h.null_eq, h.held.2.1, fun hmem => h.null_notMem (mem_ptrs_node.mpr (Or.inl hmem))⟩

theorem toRight (h : Readable null s below (.node left e right)) :
    Readable null s (some e.ptr) right :=
  ⟨h.null_eq, h.held.2.2, fun hmem => h.null_notMem (mem_ptrs_node.mpr (Or.inr (Or.inr hmem)))⟩

theorem ptr_ne_null (h : Readable null s below (.node left e right)) : e.ptr ≠ null := by
  rintro heq
  exact h.null_notMem (mem_ptrs_node.mpr (Or.inr (Or.inl heq.symm)))

theorem top_eq_null_iff (h : Readable null s below tree) : top null tree = null ↔ tree = .leaf :=
  LinkedTrees.top_eq_null_iff h.null_notMem

end Readable

theorem Stands.readable (h : Stands null s tree rootParent) : Readable null s rootParent tree :=
  ⟨h.null_eq, h.held, (List.nodup_cons.mp h.nodup).1⟩

/-- The turns that a call has are enough for every way down. -/
theorem Stands.levels_le (h : Stands null s tree rootParent) : tree.levels < s.nodes.next + 1 :=
  Nat.lt_succ_of_le (h.held.levels_le (List.nodup_cons.mp h.nodup).2)

section Searching

theorem ensures_searchFrom (h : Readable null s below tree) (hsorted : Sorted (plains tree))
    (hturns : tree.levels < turns) :
    Ensures (searchFrom key turns (top null tree)) s
      (fun r t => t = s ∧ (r = none → ∀ a ∈ plains tree, a.key ≠ key) ∧
        ∀ p, r = some p → ∃ a ∈ plains tree, a.ptr = p ∧ a.key = key) E := by
  induction turns generalizing tree below with
  | zero => exact absurd hturns (Nat.not_lt_zero _)
  | succ turns ih =>
      rw [searchFrom, ensures_bind, ensures_getNull, h.null_eq, ensures_ite]
      cases tree with
      | leaf => exact ⟨fun _ => ⟨rfl, nofun, nofun⟩, fun hne => absurd rfl hne⟩
      | node left e right =>
          refine ⟨fun heq => absurd heq h.ptr_ne_null, fun _ => ?_⟩
          rw [levels_node] at hturns
          obtain ⟨⟨hleft, hbelow⟩, hright, habove, _⟩ := sorted_node.mp hsorted
          simp only [plains_node, List.mem_append, List.mem_cons]
          rw [ensures_bind]
          refine ensures_keyOf h.find? ?_
          rw [ensures_ite]
          refine ⟨fun hlt => ?_, fun hge => ?_⟩
          · rw [ensures_bind]
            refine ensures_child h.find? rfl ((ih h.toLeft hleft (by omega)).imp ?_)
            rintro r t ⟨rfl, hnone, hsome⟩
            refine ⟨rfl, fun hr a ha => ?_, fun p hp => ?_⟩
            · rcases ha with ha | rfl | ha
              · exact hnone hr a ha
              · exact ne_of_gt hlt
              · obtain ⟨b, hb, rfl⟩ := List.mem_map.mp ha
                exact ne_of_gt (hlt.trans_le (habove b hb))
            · obtain ⟨a, ha, hap⟩ := hsome p hp
              exact ⟨a, Or.inl ha, hap⟩
          · rw [ensures_bind]
            refine ensures_keyOf h.find? ?_
            rw [ensures_ite]
            refine ⟨fun hlt => ?_, fun hle => ?_⟩
            · rw [ensures_bind]
              refine ensures_child h.find? rfl ((ih h.toRight hright (by omega)).imp ?_)
              rintro r t ⟨rfl, hnone, hsome⟩
              refine ⟨rfl, fun hr a ha => ?_, fun p hp => ?_⟩
              · rcases ha with ha | rfl | ha
                · obtain ⟨b, hb, rfl⟩ := List.mem_map.mp ha
                  exact ne_of_lt ((hbelow b hb).trans_lt hlt)
                · exact ne_of_lt hlt
                · exact hnone hr a ha
              · obtain ⟨a, ha, hap⟩ := hsome p hp
                exact ⟨a, Or.inr (Or.inr ha), hap⟩
            · refine ⟨rfl, nofun, fun p hp => ⟨plain e, Or.inr (Or.inl rfl), ?_, ?_⟩⟩
              · exact Option.some.inj hp
              · exact le_antisymm (not_lt.mp hge) (not_lt.mp hle)

/-- The search finds a node with the key, if there is one. -/
theorem ensures_utilRbtreeSearch (h : Stands null s tree rootParent)
    (hsorted : Sorted (plains tree)) (key : Int) :
    Ensures (utilRbtreeSearch key) s
      (fun r t => t = s ∧ (r = none → ∀ a ∈ plains tree, a.key ≠ key) ∧
        ∀ p, r = some p → ∃ a ∈ plains tree, a.ptr = p ∧ a.key = key) E := by
  rw [utilRbtreeSearch, ensures_bind, ensures_maxTurns, ensures_bind, ensures_getRoot, h.root_eq]
  exact ensures_searchFrom h.readable hsorted h.levels_le

theorem ensures_lookupFrom {node : Option Nat} (h : Readable null s below tree)
    (hsorted : Sorted (plains tree)) (hturns : tree.levels < turns) :
    Ensures (lookupFrom key turns (top null tree) node) s
      (fun r t => t = s ∧
        r = (((plains tree).find? (key ≤ ·.key)).map Plain.ptr).or node) E := by
  induction turns generalizing tree below node with
  | zero => exact absurd hturns (Nat.not_lt_zero _)
  | succ turns ih =>
      rw [lookupFrom, ensures_bind, ensures_getNull, h.null_eq, ensures_ite]
      cases tree with
      | leaf => exact ⟨fun _ => ⟨rfl, rfl⟩, fun hne => absurd rfl hne⟩
      | node left e right =>
          refine ⟨fun heq => absurd heq h.ptr_ne_null, fun _ => ?_⟩
          rw [levels_node] at hturns
          obtain ⟨⟨hleft, hbelow⟩, hright, _⟩ := sorted_node.mp hsorted
          rw [plains_node, List.find?_append, ensures_bind]
          refine ensures_keyOf h.find? ?_
          rw [ensures_ite]
          refine ⟨fun hle => ?_, fun hgt => ?_⟩
          · rw [ensures_bind]
            refine ensures_child h.find? rfl ((ih h.toLeft hleft (by omega)).imp ?_)
            rintro r t ⟨rfl, rfl⟩
            refine ⟨rfl, ?_⟩
            have hfound : key ≤ (plain e).key := hle
            rw [List.find?_cons_of_pos (by simpa using hfound)]
            cases (plains left).find? (key ≤ ·.key) <;> rfl
          · rw [ensures_bind]
            refine ensures_child h.find? rfl ((ih h.toRight hright (by omega)).imp ?_)
            rintro r t ⟨rfl, rfl⟩
            refine ⟨rfl, ?_⟩
            have hsmaller : ¬key ≤ (plain e).key := hgt
            have hnone : (plains left).find? (key ≤ ·.key) = none := by
              rw [List.find?_eq_none]
              intro a ha
              obtain ⟨b, hb, rfl⟩ := List.mem_map.mp ha
              have hle : (plain b).key ≤ (plain e).key := hbelow b hb
              rw [decide_eq_true_iff]
              omega
            rw [hnone, List.find?_cons_of_neg (by simpa using hsmaller)]
            rfl

/-- The outermost node on the left is the first one in order. -/
theorem ensures_utilRbsubtreeMin (h : Stands null s tree rootParent) :
    Ensures (utilRbsubtreeMin (top null tree)) s
      (fun r t => t = s ∧ r = (plains tree).head?.map Plain.ptr) E := by
  rw [utilRbsubtreeMin, ensures_bind, ensures_getNull, h.null_eq, ensures_ite,
    h.readable.top_eq_null_iff]
  refine ⟨?_, fun hne => ?_⟩
  · rintro rfl
    exact ⟨rfl, rfl⟩
  · rw [ensures_bind, ensures_maxTurns, ensures_bind]
    refine (ensures_outermost h.null_eq h.held h.readable.null_notMem hne h.levels_le.le).imp ?_
    rintro r t ⟨rfl, path, e, far, rfl, rfl, hsides⟩
    refine ⟨rfl, ?_⟩
    rw [plains_leftmost hsides]
    rfl

/-- The lookup finds the node that the key belongs to on a ring. -/
theorem ensures_utilRbtreeLookup (h : Stands null s tree rootParent)
    (hsorted : Sorted (plains tree)) (key : Int) :
    Ensures (utilRbtreeLookup key) s
      (fun r t => t = s ∧
        r = (HashRings.lookup Plain.key key (plains tree)).map Plain.ptr) E := by
  rw [utilRbtreeLookup, ensures_bind, ensures_getRoot, ensures_bind, ensures_getNull, ensures_ite,
    h.null_eq, h.root_eq, h.readable.top_eq_null_iff]
  refine ⟨?_, fun _ => ?_⟩
  · rintro rfl
    exact ⟨rfl, rfl⟩
  · rw [ensures_bind, ensures_maxTurns, ensures_bind, ensures_getRoot, h.root_eq, ensures_bind]
    refine (ensures_lookupFrom h.readable hsorted h.levels_le).imp ?_
    rintro r t ⟨rfl, rfl⟩
    rw [HashRings.lookup]
    cases (plains tree).find? (key ≤ ·.key) with
    | some a => exact ⟨rfl, rfl⟩
    | none =>
        change Ensures (do utilRbsubtreeMin (← getRoot)) t _ E
        rw [ensures_bind, ensures_getRoot, h.root_eq]
        exact ensures_utilRbsubtreeMin h

end Searching

section Traveling

variable {σ : Type} {opera : Nat → σ → Program α σ} {f : Plain α → σ → σ}

end Traveling

section Checking

end Checking

end FastDCS.RbTrees
