import FastDCS.Heaps
import FastDCS.SidedTrees

/-!
Trees on a heap whose nodes point to their parents as well as to their children. A
missing child is a pointer to a node that is not in the tree.
-/

namespace FastDCS.LinkedTrees

open FastDCS.Heaps
open FastDCS.SearchTrees
open FastDCS.SearchTrees.SearchTree

universe u

structure LinkedNode (β : Type u) where
  item : β
  parent : Option Nat
  left : Option Nat
  right : Option Nat
deriving DecidableEq

/-- A node of a tree with its place on the heap. -/
structure Placed (β : Type u) where
  ptr : Nat
  item : β
deriving DecidableEq

variable {β : Type u}

namespace LinkedNode

def child (side : Side) (node : LinkedNode β) : Option Nat :=
  match side with
  | .left => node.left
  | .right => node.right

def withParent (parent : Option Nat) (node : LinkedNode β) : LinkedNode β :=
  { node with parent := parent }

def withChild (side : Side) (child : Option Nat) (node : LinkedNode β) : LinkedNode β :=
  match side with
  | .left => { node with left := child }
  | .right => { node with right := child }

def withItem (item : β) (node : LinkedNode β) : LinkedNode β := { node with item := item }

/-- The node with its children given by side. -/
def sided (side : Side) (item : β) (parent near far : Option Nat) : LinkedNode β :=
  match side with
  | .left => ⟨item, parent, near, far⟩
  | .right => ⟨item, parent, far, near⟩

variable {side : Side} {item item' : β} {parent parent' near far child : Option Nat}

@[simp] theorem item_sided : (sided side item parent near far).item = item := by
  cases side <;> rfl

@[simp] theorem parent_sided : (sided side item parent near far).parent = parent := by
  cases side <;> rfl

@[simp] theorem child_sided : (sided side item parent near far).child side = near := by
  cases side <;> rfl

@[simp] theorem child_other_sided :
    (sided side item parent near far).child side.other = far := by
  cases side <;> rfl

@[simp] theorem item_withParent (node : LinkedNode β) : (node.withParent parent).item = node.item :=
  rfl

@[simp] theorem withItem_sided :
    (sided side item parent near far).withItem item' = sided side item' parent near far := by
  cases side <;> rfl

@[simp] theorem withParent_sided :
    (sided side item parent near far).withParent parent' = sided side item parent' near far := by
  cases side <;> rfl

@[simp] theorem withChild_sided :
    (sided side item parent near far).withChild side child = sided side item parent child far := by
  cases side <;> rfl

@[simp] theorem withChild_other_sided :
    (sided side item parent near far).withChild side.other child =
      sided side item parent near child := by
  cases side <;> rfl

theorem sided_other : (sided side.other item parent near far : LinkedNode β) =
    sided side item parent far near := by
  cases side <;> rfl

end LinkedNode

/-- Change a node that is there. -/
def change (h : Heap (LinkedNode β)) (p : Nat) (f : LinkedNode β → LinkedNode β) :
    Option (Heap (LinkedNode β)) :=
  (h.find? p).bind fun node => h.write p (f node)

/-- The pointer to a subtree. -/
def top (null : Nat) : SearchTree (Placed β) → Nat
  | .leaf => null
  | .node _ e _ => e.ptr

def ptrs (tree : SearchTree (Placed β)) : List Nat := tree.toList.map Placed.ptr

/-- The nodes on the heap are those of the tree, below the given parent. -/
def Held (h : Heap (LinkedNode β)) (null : Nat) : Option Nat → SearchTree (Placed β) → Prop
  | _, .leaf => True
  | parent, .node left e right =>
      h.find? e.ptr = some ⟨e.item, parent, some (top null left), some (top null right)⟩ ∧
        Held h null (some e.ptr) left ∧ Held h null (some e.ptr) right

/-- The parent of what stands below the frames, with `parent` for the whole tree. -/
def parentOf (parent : Option Nat) : List (Frame (Placed β)) → Option Nat
  | [] => parent
  | frame :: _ => some frame.item.ptr

/-- The nodes above a place are on the heap, where the nearest one points to `hole`. -/
def HeldAbove (h : Heap (LinkedNode β)) (null : Nat) (parent : Option Nat) :
    List (Frame (Placed β)) → Nat → Prop
  | [], _ => True
  | frame :: above, hole =>
      h.find? frame.item.ptr = some (.sided frame.side frame.item.item
        (parentOf parent above) (some hole) (some (top null frame.sibling))) ∧
      Held h null (some frame.item.ptr) frame.sibling ∧
      HeldAbove h null parent above frame.item.ptr

def ptrsAbove : List (Frame (Placed β)) → List Nat
  | [] => []
  | frame :: above => frame.item.ptr :: (ptrs frame.sibling ++ ptrsAbove above)

variable {h h' : Heap (LinkedNode β)} {null p hole : Nat} {parent parent' : Option Nat}
  {tree near far left right : SearchTree (Placed β)} {above : List (Frame (Placed β))}
  {e : Placed β} {side : Side} {node : LinkedNode β} {frame : Frame (Placed β)}

theorem exists_change (hp : h.find? p = some node) (f : LinkedNode β → LinkedNode β) :
    ∃ h', change h p f = some h' ∧ h'.next = h.next ∧
      ∀ q, h'.find? q = if q = p then some (f node) else h.find? q := by
  obtain ⟨h', hwrite⟩ := h.exists_write (p := p) (f node) (by rw [hp]; rfl)
  refine ⟨h', ?_, Heap.next_write hwrite, fun q => Heap.find?_write hwrite⟩
  rw [change, hp, Option.bind_some, hwrite]

theorem ptrs_leaf : ptrs (.leaf : SearchTree (Placed β)) = [] := rfl

theorem mem_ptrs_node :
    p ∈ ptrs (.node left e right) ↔ p ∈ ptrs left ∨ p = e.ptr ∨ p ∈ ptrs right := by
  simp [ptrs]

theorem ptrs_node_perm : (ptrs (.node left e right)).Perm (e.ptr :: (ptrs left ++ ptrs right)) := by
  rw [ptrs, toList_node, List.map_append, List.map_cons]
  exact List.perm_middle

theorem ptrs_branch_perm :
    (ptrs (.branch side near e far)).Perm (e.ptr :: (ptrs near ++ ptrs far)) := by
  cases side with
  | left => exact ptrs_node_perm
  | right => exact ptrs_node_perm.trans (List.perm_append_comm.cons _)

theorem mem_ptrs_branch :
    p ∈ ptrs (.branch side near e far) ↔ p = e.ptr ∨ p ∈ ptrs near ∨ p ∈ ptrs far := by
  rw [ptrs_branch_perm.mem_iff, List.mem_cons, List.mem_append]

theorem top_branch : top null (.branch side near e far) = e.ptr := by
  cases side <;> rfl

/-- The pointer to a subtree is one of its own, or there is no subtree. -/
theorem top_mem_or (null : Nat) (tree : SearchTree (Placed β)) :
    top null tree ∈ ptrs tree ∨ tree = .leaf ∧ top null tree = null := by
  cases tree with
  | leaf => exact Or.inr ⟨rfl, rfl⟩
  | node left e right => exact Or.inl (mem_ptrs_node.mpr (Or.inr (Or.inl rfl)))

theorem top_ne (hp : p ∉ ptrs tree) (hnull : p ≠ null) : top null tree ≠ p := by
  rintro rfl
  rcases top_mem_or null tree with hmem | ⟨_, heq⟩
  · exact hp hmem
  · exact hnull heq

theorem top_eq_null_iff (hnull : null ∉ ptrs tree) : top null tree = null ↔ tree = .leaf := by
  constructor
  · intro heq
    rcases top_mem_or null tree with hmem | ⟨hleaf, _⟩
    · rw [heq] at hmem
      exact absurd hmem hnull
    · exact hleaf
  · rintro rfl
    rfl

theorem held_branch : Held h null parent (.branch side near e far) ↔
    h.find? e.ptr = some (.sided side e.item parent (some (top null near)) (some (top null far))) ∧
      Held h null (some e.ptr) near ∧ Held h null (some e.ptr) far := by
  cases side with
  | left => exact Iff.rfl
  | right => exact and_congr_right fun _ => and_comm

theorem heldAbove_toward : HeldAbove h null parent (.toward side e tree :: above) hole ↔
    h.find? e.ptr = some (.sided side e.item (parentOf parent above) (some hole)
      (some (top null tree))) ∧
      Held h null (some e.ptr) tree ∧ HeldAbove h null parent above e.ptr := by
  cases side <;> exact Iff.rfl

theorem ptrsAbove_toward :
    ptrsAbove (.toward side e tree :: above) = e.ptr :: (ptrs tree ++ ptrsAbove above) := by
  cases side <;> rfl

theorem Held.congr (ht : Held h null parent tree)
    (hsame : ∀ q ∈ ptrs tree, h'.find? q = h.find? q) : Held h' null parent tree := by
  induction tree generalizing parent with
  | leaf => trivial
  | node left e right ihLeft ihRight =>
      obtain ⟨htop, hleft, hright⟩ := ht
      refine ⟨?_, ihLeft hleft fun q hq => ?_, ihRight hright fun q hq => ?_⟩
      · rw [hsame e.ptr (mem_ptrs_node.mpr (Or.inr (Or.inl rfl))), htop]
      · exact hsame q (mem_ptrs_node.mpr (Or.inl hq))
      · exact hsame q (mem_ptrs_node.mpr (Or.inr (Or.inr hq)))

theorem Held.isSome (ht : Held h null parent tree) (hp : p ∈ ptrs tree) : (h.find? p).isSome := by
  induction tree generalizing parent with
  | leaf => cases hp
  | node left e right ihLeft ihRight =>
      obtain ⟨htop, hleft, hright⟩ := ht
      rcases mem_ptrs_node.mp hp with hp | rfl | hp
      · exact ihLeft hleft hp
      · rw [htop]
        rfl
      · exact ihRight hright hp

theorem Held.item_eq (ht : Held h null parent tree) (he : e ∈ tree.toList) :
    (h.find? e.ptr).map LinkedNode.item = some e.item := by
  induction tree generalizing parent with
  | leaf => cases he
  | node left e' right ihLeft ihRight =>
      obtain ⟨htop, hleft, hright⟩ := ht
      rw [toList_node, List.mem_append, List.mem_cons] at he
      rcases he with he | rfl | he
      · exact ihLeft hleft he
      · rw [htop]
        rfl
      · exact ihRight hright he

/-- A tree has no more levels than there is memory for its nodes. -/
theorem Held.levels_le (ht : Held h null parent tree) (hnodup : (ptrs tree).Nodup) :
    tree.levels ≤ h.next := by
  have hlength := Heap.length_le_next hnodup fun p hp => ht.isSome hp
  rw [ptrs, List.length_map, length_toList] at hlength
  exact tree.levels_le_size.trans hlength

theorem HeldAbove.congr (ha : HeldAbove h null parent above hole)
    (hsame : ∀ q ∈ ptrsAbove above, h'.find? q = h.find? q) :
    HeldAbove h' null parent above hole := by
  induction above generalizing hole with
  | nil => trivial
  | cons frame above ih =>
      obtain ⟨htop, hsibling, habove⟩ := ha
      refine ⟨?_, hsibling.congr fun q hq => ?_, ih habove fun q hq => ?_⟩
      · rw [hsame _ List.mem_cons_self, htop]
      · exact hsame q (List.mem_cons_of_mem _ (List.mem_append_left _ hq))
      · exact hsame q (List.mem_cons_of_mem _ (List.mem_append_right _ hq))

theorem held_plug : Held h null parent (plug above tree) ↔
    HeldAbove h null parent above (top null tree) ∧ Held h null (parentOf parent above) tree := by
  induction above generalizing tree with
  | nil => exact (and_iff_right trivial).symm
  | cons frame above ih =>
      obtain ⟨side, e, sibling, rfl⟩ := frame.exists_toward
      rw [plug, ih, Frame.fill_toward, held_branch, heldAbove_toward,
        top_branch, parentOf, Frame.item_toward]
      tauto

theorem parentOf_append (path above : List (Frame (Placed β))) :
    parentOf parent (path ++ above) = parentOf (parentOf parent above) path := by
  cases path <;> rfl

theorem heldAbove_append {path : List (Frame (Placed β))} :
    HeldAbove h null parent (path ++ above) (top null tree) ↔
      HeldAbove h null (parentOf parent above) path (top null tree) ∧
        HeldAbove h null parent above (top null (plug path tree)) := by
  induction path generalizing tree with
  | nil => exact (and_iff_right trivial).symm
  | cons frame path ih =>
      obtain ⟨side, e, sibling, rfl⟩ := frame.exists_toward
      have hrest : HeldAbove h null parent (path ++ above)
          (top null (.branch side tree e sibling)) ↔ _ := ih
      rw [top_branch] at hrest
      rw [List.cons_append, heldAbove_toward, heldAbove_toward, hrest, parentOf_append, plug,
        Frame.fill_toward, and_assoc, and_assoc]

theorem ptrs_plug_perm : (ptrs (plug above tree)).Perm (ptrs tree ++ ptrsAbove above) := by
  induction above generalizing tree with
  | nil => rw [plug, ptrsAbove, List.append_nil]
  | cons frame above ih =>
      obtain ⟨side, e, sibling, rfl⟩ := frame.exists_toward
      rw [plug, Frame.fill_toward, ptrsAbove_toward]
      refine ih.trans ((ptrs_branch_perm.append_right _).trans ?_)
      rw [List.cons_append, List.append_assoc]
      exact List.perm_middle.symm

theorem ptrs_place_perm : (ptrs (plug above (.branch side near e far))).Perm
    (e.ptr :: ((ptrs near ++ ptrs far) ++ ptrsAbove above)) :=
  ptrs_plug_perm.trans (ptrs_branch_perm.append_right _)

/-- The pointer to the whole tree, with `p` at a place. -/
def topAbove : List (Frame (Placed β)) → Nat → Nat
  | [], p => p
  | frame :: above, _ => topAbove above frame.item.ptr

theorem top_plug : top null (plug above tree) = topAbove above (top null tree) := by
  induction above generalizing tree with
  | nil => rfl
  | cons frame above ih =>
      rw [plug, ih, topAbove]
      cases frame <;> rfl

theorem topAbove_mem (frame : Frame (Placed β)) (above : List (Frame (Placed β))) (p : Nat) :
    topAbove (frame :: above) p ∈ ptrsAbove (frame :: above) := by
  induction above generalizing frame p with
  | nil => exact List.mem_cons_self
  | cons frame' above ih =>
      exact List.mem_cons_of_mem _ (List.mem_append_right _ (ih frame' frame.item.ptr))

/-- A tree below another parent differs in its top only. -/
theorem Held.reparent (ht : Held h null parent tree) (hnodup : (ptrs tree).Nodup)
    (htop : ∀ node, h.find? (top null tree) = some node →
      h'.find? (top null tree) = some (node.withParent parent'))
    (hsame : ∀ q ∈ ptrs tree, q ≠ top null tree → h'.find? q = h.find? q) :
    Held h' null parent' tree := by
  cases tree with
  | leaf => trivial
  | node left e right =>
      obtain ⟨he, hleft, hright⟩ := ht
      have hne := List.nodup_cons.mp (ptrs_node_perm.nodup_iff.mp hnodup)
      rw [List.mem_append] at hne
      refine ⟨htop _ he, hleft.congr fun q hq => ?_, hright.congr fun q hq => ?_⟩
      · refine hsame q (mem_ptrs_node.mpr (Or.inl hq)) ?_
        rintro rfl
        exact hne.1 (Or.inl hq)
      · refine hsame q (mem_ptrs_node.mpr (Or.inr (Or.inr hq))) ?_
        rintro rfl
        exact hne.1 (Or.inr hq)

end FastDCS.LinkedTrees
