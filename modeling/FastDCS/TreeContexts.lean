import Mathlib.Order.MinMax
import FastDCS.SearchTrees

/-!
The place of a node in a search tree: what stands above it, what comes before and
behind it, and the path that a look-up takes to it.
-/

namespace FastDCS.SearchTrees

universe u v

/-- A node that stands above a subtree, with the subtree on its other side. -/
inductive Frame (α : Type u) where
  | wentLeft (item : α) (right : SearchTree α)
  | wentRight (left : SearchTree α) (item : α)

namespace Frame

variable {α : Type u}

def item : Frame α → α
  | wentLeft item _ => item
  | wentRight _ item => item

def fill (tree : SearchTree α) : Frame α → SearchTree α
  | wentLeft item right => .node tree item right
  | wentRight left item => .node left item tree

end Frame

namespace SearchTree

variable {α : Type u} {κ : Type v} [LinearOrder κ] {key : α → κ}

/-- The whole tree from what stands above a subtree, the nearest node first. -/
def plug : List (Frame α) → SearchTree α → SearchTree α
  | [], tree => tree
  | frame :: above, tree => plug above (frame.fill tree)

/-- The items that come before everything in the subtree. -/
def before : List (Frame α) → List α
  | [] => []
  | .wentLeft _ _ :: above => before above
  | .wentRight left item :: above => before above ++ (left.toList ++ [item])

/-- The items that come behind everything in the subtree. -/
def after : List (Frame α) → List α
  | [] => []
  | .wentLeft item right :: above => item :: (right.toList ++ after above)
  | .wentRight _ _ :: above => after above

theorem toList_plug (above : List (Frame α)) (tree : SearchTree α) :
    (plug above tree).toList = before above ++ (tree.toList ++ after above) := by
  induction above generalizing tree with
  | nil => simp [plug, before, after]
  | cons frame above ih =>
      rw [plug, ih]
      cases frame with
      | wentLeft item right => simp [Frame.fill, before, after]
      | wentRight left item => simp [Frame.fill, before, after]

theorem plug_append (above rest : List (Frame α)) (tree : SearchTree α) :
    plug (above ++ rest) tree = plug rest (plug above tree) := by
  induction above generalizing tree with
  | nil => rfl
  | cons frame above ih => exact ih (frame.fill tree)

theorem plug_concat (above : List (Frame α)) (frame : Frame α) (tree : SearchTree α) :
    plug (above ++ [frame]) tree = frame.fill (plug above tree) :=
  plug_append above [frame] tree

theorem levels_plug (above : List (Frame α)) (tree : SearchTree α) :
    above.length + tree.levels ≤ (plug above tree).levels := by
  induction above generalizing tree with
  | nil => exact (Nat.zero_add _).le
  | cons frame above ih =>
      have hfill : tree.levels + 1 ≤ (frame.fill tree).levels := by
        cases frame with
        | wentLeft item right => exact Nat.succ_le_succ (le_max_left _ _)
        | wentRight left item => exact Nat.succ_le_succ (le_max_right _ _)
      have hplug := ih (frame.fill tree)
      rw [List.length_cons, plug]
      omega

/-- Every item has its place. -/
theorem exists_plug_of_mem {item : α} {tree : SearchTree α} (h : item ∈ tree.toList) :
    ∃ above left right, tree = plug above (node left item right) := by
  induction tree with
  | leaf => cases h
  | node left top right ihLeft ihRight =>
      rcases List.mem_append.mp h with h | h
      · obtain ⟨above, left', right', rfl⟩ := ihLeft h
        exact ⟨_, left', right', (plug_concat above (.wentLeft top right) _).symm⟩
      · rcases List.mem_cons.mp h with rfl | h
        · exact ⟨[], left, right, rfl⟩
        · obtain ⟨above, left', right', rfl⟩ := ihRight h
          exact ⟨_, left', right', (plug_concat above (.wentRight left top) _).symm⟩

/-- There is a node on the last level. -/
theorem exists_deepest {tree : SearchTree α} {n : Nat} (h : tree.levels = n + 1) :
    ∃ above left item right, tree = plug above (node left item right) ∧ above.length = n := by
  induction tree generalizing n with
  | leaf => cases h
  | node left top right ihLeft ihRight =>
      cases n with
      | zero => exact ⟨[], left, top, right, rfl, rfl⟩
      | succ n =>
          have hmax : max left.levels right.levels = n + 1 := Nat.succ_inj.mp h
          rcases max_choice left.levels right.levels with hside | hside
          · obtain ⟨above, left', item, right', rfl, hlength⟩ := ihLeft (hside ▸ hmax)
            refine ⟨above ++ [.wentLeft top right], left', item, right', ?_, ?_⟩
            · exact (plug_concat above (.wentLeft top right) _).symm
            · rw [List.length_append, hlength, List.length_singleton]
          · obtain ⟨above, left', item, right', rfl, hlength⟩ := ihRight (hside ▸ hmax)
            refine ⟨above ++ [.wentRight left top], left', item, right', ?_, ?_⟩
            · exact (plug_concat above (.wentRight left top) _).symm
            · rw [List.length_append, hlength, List.length_singleton]

theorem ordered_of_plug {above : List (Frame α)} {tree : SearchTree α}
    (h : (plug above tree).Ordered key) : tree.Ordered key := by
  rw [Ordered, toList_plug] at h
  exact (List.pairwise_append.mp (List.pairwise_append.mp h).2.1).1

section Paths

variable (key)

/-- The subtree whose top has the key. -/
def subtreeAt (k : κ) : SearchTree α → SearchTree α
  | leaf => leaf
  | node left item right =>
      if k < key item then left.subtreeAt k
      else if key item < k then right.subtreeAt k
      else node left item right

/-- The nodes above the one with the key, the nearest first, on top of those in `above`. -/
def path (k : κ) : SearchTree α → List α → List α
  | leaf, above => above
  | node left item right, above =>
      if k < key item then left.path k (item :: above)
      else if key item < k then right.path k (item :: above)
      else above

variable {key} {above : List (Frame α)} {tree left right : SearchTree α} {item : α}

theorem subtreeAt_top : (node left item right).subtreeAt key (key item) = node left item right := by
  rw [subtreeAt, if_neg (lt_irrefl _), if_neg (lt_irrefl _)]

theorem path_top (passed : List α) :
    (node left item right).path key (key item) passed = passed := by
  rw [path, if_neg (lt_irrefl _), if_neg (lt_irrefl _)]

/-- A look-up of an item below a frame goes to the side that the frame left open. -/
theorem subtreeAt_fill {frame : Frame α} (h : (frame.fill tree).Ordered key)
    (hitem : item ∈ tree.toList) :
    (frame.fill tree).subtreeAt key (key item) = tree.subtreeAt key (key item) := by
  cases frame with
  | wentLeft top right =>
      have hlt := (ordered_node.mp h).1.2 item hitem
      rw [Frame.fill, subtreeAt, if_pos hlt]
  | wentRight left top =>
      have hlt := (ordered_node.mp h).2.2 item hitem
      rw [Frame.fill, subtreeAt, if_neg hlt.not_gt, if_pos hlt]

theorem path_fill {frame : Frame α} (h : (frame.fill tree).Ordered key)
    (hitem : item ∈ tree.toList) (passed : List α) :
    (frame.fill tree).path key (key item) passed =
      tree.path key (key item) (frame.item :: passed) := by
  cases frame with
  | wentLeft top right =>
      have hlt := (ordered_node.mp h).1.2 item hitem
      rw [Frame.fill, path, if_pos hlt]
      rfl
  | wentRight left top =>
      have hlt := (ordered_node.mp h).2.2 item hitem
      rw [Frame.fill, path, if_neg hlt.not_gt, if_pos hlt]
      rfl

theorem mem_fill (frame : Frame α) (h : item ∈ tree.toList) : item ∈ (frame.fill tree).toList := by
  cases frame with
  | wentLeft top right => exact List.mem_append_left _ h
  | wentRight left top => exact List.mem_append_right _ (List.mem_cons_of_mem _ h)

theorem subtreeAt_plug (h : (plug above tree).Ordered key) (hitem : item ∈ tree.toList) :
    (plug above tree).subtreeAt key (key item) = tree.subtreeAt key (key item) := by
  induction above generalizing tree with
  | nil => rfl
  | cons frame above ih =>
      have hfill : (frame.fill tree).Ordered key := ordered_of_plug h
      rw [plug, ih h (mem_fill frame hitem), subtreeAt_fill hfill hitem]

theorem path_plug (h : (plug above tree).Ordered key) (hitem : item ∈ tree.toList)
    (passed : List α) :
    (plug above tree).path key (key item) passed =
      tree.path key (key item) (above.map Frame.item ++ passed) := by
  induction above generalizing tree with
  | nil => rfl
  | cons frame above ih =>
      have hfill : (frame.fill tree).Ordered key := ordered_of_plug h
      rw [plug, ih h (mem_fill frame hitem), path_fill hfill hitem]
      rfl

theorem mem_node : item ∈ (node left item right).toList :=
  List.mem_append_right _ List.mem_cons_self

/-- A node is found at its place. -/
theorem subtreeAt_place (h : (plug above (node left item right)).Ordered key) :
    (plug above (node left item right)).subtreeAt key (key item) = node left item right := by
  rw [subtreeAt_plug h mem_node, subtreeAt_top]

theorem path_place (h : (plug above (node left item right)).Ordered key) :
    (plug above (node left item right)).path key (key item) [] = above.map Frame.item := by
  rw [path_plug h mem_node, path_top, List.append_nil]

end Paths

end SearchTree

end FastDCS.SearchTrees
