import Mathlib.Algebra.Group.Nat.Defs
import Mathlib.Order.Lattice
import Mathlib.Tactic.SplitIfs

/-!
Binary search trees of items that are compared by a key: looking an item up and
putting one in where its key is not there yet, the list of the items in order,
and how many levels they take.
-/

namespace FastDCS.SearchTrees

universe u v

inductive SearchTree (α : Type u) where
  | leaf
  | node (left : SearchTree α) (item : α) (right : SearchTree α)
deriving DecidableEq

namespace SearchTree

variable {α : Type u} {κ : Type v} [LinearOrder κ] (key : α → κ)

def find (k : κ) : SearchTree α → Option α
  | leaf => none
  | node left item right =>
      if k < key item then find k left
      else if key item < k then find k right
      else some item

/-- The item already in the tree stays where one with the same key is put in. -/
def probe (new : α) : SearchTree α → SearchTree α
  | leaf => node leaf new leaf
  | node left item right =>
      if key new < key item then node (probe new left) item right
      else if key item < key new then node left item (probe new right)
      else node left item right

@[simp] theorem find_leaf (k : κ) : (leaf : SearchTree α).find key k = none := rfl

/-- Looking the new key up takes the path of putting it in. -/
theorem find_probe_self (new : α) (tree : SearchTree α) :
    (tree.probe key new).find key (key new) = some ((tree.find key (key new)).getD new) := by
  induction tree with
  | leaf =>
      rw [find_leaf, probe, find, if_neg (lt_irrefl _), if_neg (lt_irrefl _), Option.getD_none]
  | node left item right ihLeft ihRight =>
      rw [probe, find]
      split_ifs with hlt hgt
      · rw [find, if_pos hlt, ihLeft]
      · rw [find, if_neg hlt, if_pos hgt, ihRight]
      · rw [find, if_neg hlt, if_neg hgt, Option.getD_some]

theorem find_probe_of_ne {k : κ} {new : α} (h : k ≠ key new) (tree : SearchTree α) :
    (tree.probe key new).find key k = tree.find key k := by
  induction tree with
  | leaf =>
      rw [find_leaf, probe, find, find_leaf]
      split_ifs with hlt hgt
      · rfl
      · rfl
      · exact absurd (le_antisymm (not_lt.mp hgt) (not_lt.mp hlt)) h
  | node left item right ihLeft ihRight =>
      rw [probe]
      split_ifs
      · rw [find, find, ihLeft]
      · rw [find, find, ihRight]
      · rfl

theorem find_probe (k : κ) (new : α) (tree : SearchTree α) :
    (tree.probe key new).find key k =
      if k = key new then some ((tree.find key k).getD new) else tree.find key k := by
  split_ifs with heq
  · rw [heq, find_probe_self]
  · exact find_probe_of_ne key heq tree

section Inorder

def toList : SearchTree α → List α
  | leaf => []
  | node left item right => left.toList ++ item :: right.toList

def size : SearchTree α → Nat
  | leaf => 0
  | node left _ right => left.size + right.size + 1

def levels : SearchTree α → Nat
  | leaf => 0
  | node left _ right => max left.levels right.levels + 1

/-- From left to right, the keys increase. -/
def Ordered (tree : SearchTree α) : Prop := tree.toList.Pairwise fun a b => key a < key b

@[simp] theorem toList_leaf : (leaf : SearchTree α).toList = [] := rfl

@[simp] theorem toList_node (left right : SearchTree α) (item : α) :
    (node left item right).toList = left.toList ++ item :: right.toList := rfl

@[simp] theorem size_leaf : (leaf : SearchTree α).size = 0 := rfl

@[simp] theorem size_node (left right : SearchTree α) (item : α) :
    (node left item right).size = left.size + right.size + 1 := rfl

@[simp] theorem levels_node (left right : SearchTree α) (item : α) :
    (node left item right).levels = max left.levels right.levels + 1 := rfl

theorem length_toList (tree : SearchTree α) : tree.toList.length = tree.size := by
  induction tree with
  | leaf => rfl
  | node left item right ihLeft ihRight =>
      rw [toList_node, List.length_append, List.length_cons, ihLeft, ihRight, size_node]
      omega

/-- There is room for so many items in so many levels. -/
theorem size_lt (tree : SearchTree α) : tree.size < 2 ^ tree.levels := by
  induction tree with
  | leaf => exact Nat.one_pos
  | node left item right ihLeft ihRight =>
      have hleft := Nat.pow_le_pow_right Nat.two_pos (le_max_left left.levels right.levels)
      have hright := Nat.pow_le_pow_right Nat.two_pos (le_max_right left.levels right.levels)
      rw [size_node, levels_node, Nat.pow_succ]
      omega

theorem levels_le_size (tree : SearchTree α) : tree.levels ≤ tree.size := by
  induction tree with
  | leaf => exact le_rfl
  | node left item right ihLeft ihRight =>
      rw [levels_node, size_node]
      omega

variable {key}

theorem ordered_node {left right : SearchTree α} {item : α} :
    (node left item right).Ordered key ↔
      (left.Ordered key ∧ ∀ a ∈ left.toList, key a < key item) ∧
        right.Ordered key ∧ ∀ a ∈ right.toList, key item < key a := by
  rw [Ordered, toList_node, List.pairwise_append, List.pairwise_cons]
  constructor
  · rintro ⟨hleft, ⟨hitem, hright⟩, hcross⟩
    exact ⟨⟨hleft, fun a ha => hcross a ha item List.mem_cons_self⟩, hright, hitem⟩
  · rintro ⟨⟨hleft, hbelow⟩, hright, habove⟩
    refine ⟨hleft, ⟨habove, hright⟩, fun a ha b hb => ?_⟩
    rcases List.mem_cons.mp hb with rfl | hb
    · exact hbelow a ha
    · exact (hbelow a ha).trans (habove b hb)

theorem Ordered.nodup {tree : SearchTree α} (h : tree.Ordered key) : tree.toList.Nodup :=
  List.Pairwise.imp (fun hlt heq => (heq ▸ hlt).false) h

/-- A look-up finds exactly the items of an ordered tree. -/
theorem Ordered.find_eq_some_iff {tree : SearchTree α} (h : tree.Ordered key) {k : κ} {item : α} :
    tree.find key k = some item ↔ item ∈ tree.toList ∧ key item = k := by
  induction tree with
  | leaf => simp
  | node left top right ihLeft ihRight =>
      obtain ⟨⟨hleft, hbelow⟩, hright, habove⟩ := ordered_node.mp h
      rw [find, toList_node, List.mem_append, List.mem_cons]
      split_ifs with hlt hgt
      · rw [ihLeft hleft]
        constructor
        · exact fun hitem => ⟨Or.inl hitem.1, hitem.2⟩
        · rintro ⟨hitem | rfl | hitem, rfl⟩
          · exact ⟨hitem, rfl⟩
          · exact absurd hlt (lt_irrefl _)
          · exact absurd (hlt.trans (habove item hitem)) (lt_irrefl _)
      · rw [ihRight hright]
        constructor
        · exact fun hitem => ⟨Or.inr (Or.inr hitem.1), hitem.2⟩
        · rintro ⟨hitem | rfl | hitem, rfl⟩
          · exact absurd (hgt.trans (hbelow item hitem)) (lt_irrefl _)
          · exact absurd hgt (lt_irrefl _)
          · exact ⟨hitem, rfl⟩
      · have hk : key top = k := le_antisymm (not_lt.mp hlt) (not_lt.mp hgt)
        rw [Option.some.injEq]
        constructor
        · rintro rfl
          exact ⟨Or.inr (Or.inl rfl), hk⟩
        · rintro ⟨hitem | rfl | hitem, rfl⟩
          · exact absurd hk (hbelow item hitem).ne'
          · rfl
          · exact absurd hk (habove item hitem).ne

/-- What is found depends on the items and not on the shape. -/
theorem Ordered.find_congr {tree tree' : SearchTree α} (h : tree.Ordered key)
    (hlist : tree'.toList = tree.toList) (k : κ) : tree'.find key k = tree.find key k := by
  have h' : tree'.Ordered key := by
    rw [Ordered, hlist]
    exact h
  ext item
  rw [h'.find_eq_some_iff, h.find_eq_some_iff, hlist]

theorem mem_toList_probe {new item : α} {tree : SearchTree α}
    (h : item ∈ (tree.probe key new).toList) : item ∈ tree.toList ∨ item = new := by
  induction tree with
  | leaf => exact Or.inr (List.mem_singleton.mp h)
  | node left top right ihLeft ihRight =>
      rw [probe] at h
      rw [toList_node, List.mem_append, List.mem_cons]
      split_ifs at h
      · rw [toList_node, List.mem_append, List.mem_cons] at h
        exact h.elim (fun hl => (ihLeft hl).imp Or.inl id) fun hr => Or.inl (Or.inr hr)
      · rw [toList_node, List.mem_append, List.mem_cons] at h
        rcases h with hl | rfl | hr
        · exact Or.inl (Or.inl hl)
        · exact Or.inl (Or.inr (Or.inl rfl))
        · exact (ihRight hr).imp (fun hr => Or.inr (Or.inr hr)) id
      · rw [toList_node, List.mem_append, List.mem_cons] at h
        exact Or.inl h

theorem ordered_leaf : (leaf : SearchTree α).Ordered key := List.Pairwise.nil

theorem Ordered.probe {tree : SearchTree α} (h : tree.Ordered key) (new : α) :
    (tree.probe key new).Ordered key := by
  induction tree with
  | leaf => exact List.pairwise_singleton _ _
  | node left top right ihLeft ihRight =>
      obtain ⟨⟨hleft, hbelow⟩, hright, habove⟩ := ordered_node.mp h
      rw [SearchTree.probe]
      split_ifs with hlt hgt
      · refine ordered_node.mpr ⟨⟨ihLeft hleft, fun a ha => ?_⟩, hright, habove⟩
        rcases mem_toList_probe ha with ha | rfl
        · exact hbelow a ha
        · exact hlt
      · refine ordered_node.mpr ⟨⟨hleft, hbelow⟩, ihRight hright, fun a ha => ?_⟩
        rcases mem_toList_probe ha with ha | rfl
        · exact habove a ha
        · exact hgt
      · exact h

/-- An item is put in where its key is not found. -/
theorem size_probe (new : α) (tree : SearchTree α) :
    (tree.probe key new).size =
      if (tree.find key (key new)).isSome then tree.size else tree.size + 1 := by
  induction tree with
  | leaf => rfl
  | node left top right ihLeft ihRight =>
      rw [SearchTree.probe, find]
      by_cases hlt : key new < key top
      · rw [if_pos hlt, if_pos hlt, size_node, size_node, ihLeft]
        split_ifs
        · rfl
        · omega
      · rw [if_neg hlt, if_neg hlt]
        by_cases hgt : key top < key new
        · rw [if_pos hgt, if_pos hgt, size_node, size_node, ihRight]
          split_ifs
          · rfl
          · omega
        · rw [if_neg hgt, if_neg hgt]
          rfl

end Inorder

end SearchTree

end FastDCS.SearchTrees
