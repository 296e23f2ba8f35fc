import FastDCS.TreeContexts

/-!
Search trees with the two sides on a par, for what is said of one side and holds of
the other one too.
-/

namespace FastDCS.SearchTrees

universe u

inductive Side where
  | left
  | right
deriving DecidableEq

def Side.other : Side → Side
  | left => right
  | right => left

@[simp] theorem Side.other_other (side : Side) : side.other.other = side := by
  cases side <;> rfl

theorem Side.other_ne (side : Side) : side.other ≠ side := by
  cases side <;> exact nofun

namespace SearchTree

variable {α : Type u}

/-- A node with the tree `near` on the given side and `far` on the other one. -/
def branch (side : Side) (near : SearchTree α) (item : α) (far : SearchTree α) : SearchTree α :=
  match side with
  | .left => node near item far
  | .right => node far item near

theorem branch_other (side : Side) (near far : SearchTree α) (item : α) :
    branch side.other near item far = branch side far item near := by
  cases side <;> rfl

theorem exists_branch (side : Side) (left right : SearchTree α) (item : α) :
    ∃ near far, node left item right = branch side near item far := by
  cases side with
  | left => exact ⟨left, right, rfl⟩
  | right => exact ⟨right, left, rfl⟩

/-- A rotation keeps the order of the items. -/
theorem toList_rotate (side : Side) (a b c : SearchTree α) (x y : α) :
    (branch side a x (branch side b y c)).toList =
      (branch side (branch side a x b) y c).toList := by
  cases side with
  | left => simp [branch]
  | right => simp [branch]

theorem toList_branch_congr {side : Side} {near near' far far' : SearchTree α} {item : α}
    (hnear : near.toList = near'.toList) (hfar : far.toList = far'.toList) :
    (branch side near item far).toList = (branch side near' item far').toList := by
  cases side with
  | left => simp [branch, hnear, hfar]
  | right => simp [branch, hnear, hfar]

theorem branch_ne_leaf (side : Side) (near far : SearchTree α) (item : α) :
    branch side near item far ≠ leaf := by
  cases side <;> exact nofun

theorem plug_ne_leaf {tree : SearchTree α} (h : tree ≠ leaf) (above : List (Frame α)) :
    plug above tree ≠ leaf := by
  induction above generalizing tree with
  | nil => exact h
  | cons frame above ih =>
      refine ih ?_
      cases frame <;> exact nofun

theorem toList_plug_congr {above : List (Frame α)} {tree tree' : SearchTree α}
    (h : tree.toList = tree'.toList) : (plug above tree).toList = (plug above tree').toList := by
  rw [toList_plug, toList_plug, h]

end SearchTree

/-- A node above a subtree that hangs on the given side of it. -/
def Frame.toward {α : Type u} (side : Side) (item : α) (sibling : SearchTree α) : Frame α :=
  match side with
  | .left => .wentLeft item sibling
  | .right => .wentRight sibling item

namespace Frame

variable {α : Type u}

theorem fill_toward (side : Side) (item : α) (sibling tree : SearchTree α) :
    (toward side item sibling).fill tree = .branch side tree item sibling := by
  cases side <;> rfl

@[simp] theorem item_toward (side : Side) (item : α) (sibling : SearchTree α) :
    (toward side item sibling).item = item := by
  cases side <;> rfl

def sibling : Frame α → SearchTree α
  | wentLeft _ right => right
  | wentRight left _ => left

def side : Frame α → Side
  | wentLeft _ _ => .left
  | wentRight _ _ => .right

@[simp] theorem side_toward (side : Side) (item : α) (tree : SearchTree α) :
    (toward side item tree).side = side := by
  cases side <;> rfl

@[simp] theorem sibling_toward (side : Side) (item : α) (tree : SearchTree α) :
    (toward side item tree).sibling = tree := by
  cases side <;> rfl

theorem toward_inj {side side' : Side} {item item' : α} {tree tree' : SearchTree α}
    (h : toward side item tree = toward side' item' tree') :
    side = side' ∧ item = item' ∧ tree = tree' := by
  have hside := congrArg Frame.side h
  have hitem := congrArg Frame.item h
  have htree := congrArg Frame.sibling h
  simp only [side_toward, item_toward, sibling_toward] at hside hitem htree
  exact ⟨hside, hitem, htree⟩

theorem exists_toward (frame : Frame α) :
    ∃ side item sibling, frame = toward side item sibling := by
  cases frame with
  | wentLeft item right => exact ⟨.left, item, right, rfl⟩
  | wentRight left item => exact ⟨.right, item, left, rfl⟩

end Frame

end FastDCS.SearchTrees
