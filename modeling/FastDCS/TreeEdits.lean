import Mathlib.Data.List.Basic
import FastDCS.SearchTrees

/-!
Taking items out of a binary search tree, and putting one in the place of another with the same
key.
-/

namespace FastDCS.SearchTrees

universe u v

namespace SearchTree

variable {α : Type u} {κ : Type v} [LinearOrder κ]

/-- The last node down the left links of a node is taken out: its item, and what stays. -/
def takeLeast : SearchTree α → α → SearchTree α → α × SearchTree α
  | leaf, item, right => (item, right)
  | node left least behind, item, right =>
      let (least, left) := takeLeast left least behind
      (least, node left item right)

/-- What comes in the place of a node with these two sides. -/
def join : SearchTree α → SearchTree α → SearchTree α
  | left, leaf => left
  | left, node left' item right =>
      let (least, right) := takeLeast left' item right
      node left least right

variable (key : α → κ)

/-- The item with the key, and the tree without it. -/
def delete (k : κ) : SearchTree α → Option (α × SearchTree α)
  | leaf => none
  | node left item right =>
      if k < key item then (delete k left).map fun (found, left) => (found, node left item right)
      else if key item < k then
        (delete k right).map fun (found, right) => (found, node left item right)
      else some (item, join left right)

/-- The new item comes in the place of the one with its key, if there is one. -/
def put (new : α) : SearchTree α → SearchTree α
  | leaf => leaf
  | node left item right =>
      if key new < key item then node (put new left) item right
      else if key item < key new then node left item (put new right)
      else node left new right

theorem toList_takeLeast (left : SearchTree α) (item : α) (right : SearchTree α) :
    (takeLeast left item right).1 :: (takeLeast left item right).2.toList =
      left.toList ++ item :: right.toList := by
  induction left generalizing item right with
  | leaf => rfl
  | node left least behind ihLeft _ =>
      rw [takeLeast, toList_node, toList_node, ← ihLeft least behind]
      rfl

theorem toList_join (left right : SearchTree α) :
    (join left right).toList = left.toList ++ right.toList := by
  cases right with
  | leaf => exact (List.append_nil _).symm
  | node left' item right =>
      rw [join, toList_node, toList_node, toList_takeLeast]

variable {key} {k : κ} {found : α} {tree tree' : SearchTree α}

theorem delete_eq_none_iff : tree.delete key k = none ↔ tree.find key k = none := by
  induction tree with
  | leaf => exact iff_of_true rfl rfl
  | node left item right ihLeft ihRight =>
      rw [delete, find]
      split_ifs
      · rw [Option.map_eq_none_iff, ihLeft]
      · rw [Option.map_eq_none_iff, ihRight]
      · simp

/-- One item is taken out of the list of the items, the one that a look-up finds. -/
theorem delete_spec (h : tree.delete key k = some (found, tree')) :
    tree.find key k = some found ∧ ∃ before behind,
      tree.toList = before ++ found :: behind ∧ tree'.toList = before ++ behind := by
  induction tree generalizing tree' with
  | leaf => cases h
  | node left item right ihLeft ihRight =>
      rw [delete] at h
      rw [find, toList_node]
      split_ifs at h ⊢ with hlt hgt
      · obtain ⟨⟨x, left'⟩, hdelete, heq⟩ := Option.map_eq_some_iff.mp h
        cases heq
        obtain ⟨hfind, before, behind, hlist, hlist'⟩ := ihLeft hdelete
        refine ⟨hfind, before, behind ++ item :: right.toList, ?_, ?_⟩
        · rw [hlist, List.append_assoc, List.cons_append]
        · rw [toList_node, hlist', List.append_assoc]
      · obtain ⟨⟨x, right'⟩, hdelete, heq⟩ := Option.map_eq_some_iff.mp h
        cases heq
        obtain ⟨hfind, before, behind, hlist, hlist'⟩ := ihRight hdelete
        refine ⟨hfind, left.toList ++ item :: before, behind, ?_, ?_⟩
        · rw [hlist, List.append_assoc, List.cons_append]
        · rw [toList_node, hlist', List.append_assoc, List.cons_append]
      · cases h
        exact ⟨rfl, left.toList, right.toList, rfl, toList_join left right⟩

theorem Ordered.delete (h : tree.Ordered key) (hdelete : tree.delete key k = some (found, tree')) :
    tree'.Ordered key := by
  obtain ⟨-, before, behind, hlist, hlist'⟩ := delete_spec hdelete
  rw [Ordered, hlist] at h
  rw [Ordered, hlist']
  exact h.sublist (List.Sublist.append_left (List.sublist_cons_self _ _) _)

theorem size_delete (hdelete : tree.delete key k = some (found, tree')) :
    tree.size = tree'.size + 1 := by
  obtain ⟨-, before, behind, hlist, hlist'⟩ := delete_spec hdelete
  rw [← length_toList, ← length_toList, hlist, hlist', List.length_append, List.length_cons,
    List.length_append]
  omega

/-- Of the items of an ordered tree, only the one that is taken out has its key. -/
theorem Ordered.find_delete (h : tree.Ordered key)
    (hdelete : tree.delete key k = some (found, tree')) (k' : κ) :
    tree'.find key k' = if k' = k then none else tree.find key k' := by
  have h' := h.delete hdelete
  obtain ⟨hfind, before, behind, hlist, hlist'⟩ := delete_spec hdelete
  have hkey : key found = k := (h.find_eq_some_iff.mp hfind).2
  have hpairs := h
  rw [Ordered, hlist, List.pairwise_append, List.pairwise_cons] at hpairs
  split_ifs with hk
  · rw [hk, Option.eq_none_iff_forall_ne_some]
    intro item hitem
    rw [h'.find_eq_some_iff, hlist', List.mem_append] at hitem
    obtain ⟨hmem | hmem, hsame⟩ := hitem
    · have hlt := hpairs.2.2 item hmem found List.mem_cons_self
      exact absurd (hsame.trans hkey.symm) hlt.ne
    · have hlt := hpairs.2.1.1 item hmem
      exact absurd (hkey.trans hsame.symm) hlt.ne
  · ext item
    rw [h'.find_eq_some_iff, h.find_eq_some_iff, hlist, hlist', List.mem_append, List.mem_append,
      List.mem_cons]
    constructor
    · rintro ⟨hmem | hmem, hitem⟩
      · exact ⟨Or.inl hmem, hitem⟩
      · exact ⟨Or.inr (Or.inr hmem), hitem⟩
    · rintro ⟨hmem | rfl | hmem, hitem⟩
      · exact ⟨Or.inl hmem, hitem⟩
      · exact absurd (hitem.symm.trans hkey) hk
      · exact ⟨Or.inr hmem, hitem⟩

theorem find_put_self (new : α) (tree : SearchTree α) :
    (tree.put key new).find key (key new) = (tree.find key (key new)).map fun _ => new := by
  induction tree with
  | leaf => rfl
  | node left item right ihLeft ihRight =>
      rw [put, find]
      split_ifs with hlt hgt
      · rw [find, if_pos hlt, ihLeft]
      · rw [find, if_neg hlt, if_pos hgt, ihRight]
      · rw [find, if_neg (lt_irrefl _), if_neg (lt_irrefl _), Option.map_some]

theorem find_put_of_ne {new : α} (h : k ≠ key new) (tree : SearchTree α) :
    (tree.put key new).find key k = tree.find key k := by
  induction tree with
  | leaf => rfl
  | node left item right ihLeft ihRight =>
      rw [put]
      split_ifs with hlt hgt
      · rw [find, find, ihLeft]
      · rw [find, find, ihRight]
      · have hkey : key new = key item := le_antisymm (not_lt.mp hgt) (not_lt.mp hlt)
        rw [find, find, hkey]
        split_ifs with hbelow habove
        · rfl
        · rfl
        · exact absurd (le_antisymm (not_lt.mp habove) (not_lt.mp hbelow)) (hkey ▸ h)

/-- The keys stay where they are. -/
theorem map_key_put (new : α) (tree : SearchTree α) :
    (tree.put key new).toList.map key = tree.toList.map key := by
  induction tree with
  | leaf => rfl
  | node left item right ihLeft ihRight =>
      rw [put]
      split_ifs with hlt hgt
      · simp only [toList_node, List.map_append, List.map_cons, ihLeft]
      · simp only [toList_node, List.map_append, List.map_cons, ihRight]
      · have hkey : key new = key item := le_antisymm (not_lt.mp hgt) (not_lt.mp hlt)
        simp only [toList_node, List.map_append, List.map_cons, hkey]

theorem ordered_iff_map : tree.Ordered key ↔ (tree.toList.map key).Pairwise (· < ·) := by
  rw [Ordered, List.pairwise_map]

theorem Ordered.put (h : tree.Ordered key) (new : α) : (tree.put key new).Ordered key := by
  rw [ordered_iff_map, map_key_put, ← ordered_iff_map]
  exact h

theorem size_put (new : α) (tree : SearchTree α) : (tree.put key new).size = tree.size := by
  have hkeys : ((tree.put key new).toList.map key).length = (tree.toList.map key).length :=
    congrArg List.length (map_key_put new tree)
  rwa [List.length_map, List.length_map, length_toList, length_toList] at hkeys

end SearchTree

end FastDCS.SearchTrees
