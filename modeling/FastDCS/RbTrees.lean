import FastDCS.Handlers
import FastDCS.LinkedTrees
import FastDCS.MachineIntegers
import FastDCS.RedBlackTrees

/-!
`util_rbtree.c`: the functions of the red-black tree, on nodes with pointers to their
parents and a sentinel for what is missing.
-/

namespace FastDCS.RbTrees

open FastDCS.Handlers
open FastDCS.Heaps
open FastDCS.SearchTrees
open FastDCS.LinkedTrees
open FastDCS.MachineIntegers
open FastDCS.RedBlackTrees

/-- `util_rbtree_node_s` without its links; `key` is a long. -/
structure RbItem (α : Type) where
  key : Int
  color : Color
  data : α
deriving DecidableEq

/-- `util_rbtree_s` and the memory with its nodes. `null` is where the sentinel stands. -/
structure UtilRbtree (α : Type) where
  nodes : Heap (LinkedNode (RbItem α))
  root : Nat
  null : Nat
  size : UInt32

/-- A pointer is followed that is NULL or points to nothing; or a loop takes more turns
than the tree can have levels. -/
inductive Fault where
  | badPointer
  | outOfTurns
deriving DecidableEq

abbrev Program (α β : Type) := StateT (UtilRbtree α) (Except Fault) β

variable {α : Type}

section Fields

def follow : Option Nat → Program α Nat
  | some p => pure p
  | none => throw .badPointer

def nodeAt (p : Nat) : Program α (LinkedNode (RbItem α)) := do
  match (← get).nodes.find? p with
  | some node => pure node
  | none => throw .badPointer

def update (p : Nat) (f : LinkedNode (RbItem α) → LinkedNode (RbItem α)) : Program α PUnit := do
  let s ← get
  match change s.nodes p f with
  | some nodes => set { s with nodes := nodes }
  | none => throw .badPointer

def parent (p : Nat) : Program α Nat := do
  let node ← nodeAt p
  follow node.parent

def child (side : Side) (p : Nat) : Program α Nat := do
  let node ← nodeAt p
  follow (node.child side)

def keyOf (p : Nat) : Program α Int := do
  let node ← nodeAt p
  return node.item.key

def colorOf (p : Nat) : Program α Color := do
  let node ← nodeAt p
  return node.item.color

def setParent (p : Nat) (q : Option Nat) : Program α PUnit := update p (.withParent q)

def setChild (side : Side) (p q : Nat) : Program α PUnit := update p (.withChild side (some q))

def setColor (p : Nat) (color : Color) : Program α PUnit :=
  update p fun node => node.withItem { node.item with color := color }

def setRoot (p : Nat) : Program α PUnit := modify fun s => { s with root := p }

def getNull : Program α Nat := do return (← get).null

def getRoot : Program α Nat := do return (← get).root

/-- No way through the tree has more nodes than were ever made. -/
def maxTurns : Program α Nat := do return (← get).nodes.next + 1

/-- `rbt_clear_node`. -/
def rbtClearNode (p : Nat) : Program α PUnit := update p fun node => ⟨node.item, none, none, none⟩

end Fields

/-- `if(parent->left == old) parent->left = new; else parent->right = new`. -/
def relink (parent old new : Nat) : Program α PUnit := do
  if (← child .left parent) = old then setChild .left parent new else setChild .right parent new

/-- `new` gets the place of `old` below its parent, or becomes the root. -/
def replace (old new : Nat) : Program α PUnit := do
  if old = (← getRoot) then setRoot new else relink (← parent old) old new

/-- The two rotations: the child on the other side comes up. -/
def rotate (side : Side) (node : Nat) : Program α PUnit := do
  let rc ← child side.other node
  let rclc ← child side rc
  setParent rc (← nodeAt node).parent
  replace node rc
  setParent node (some rc)
  setChild side rc node
  setChild side.other node rclc
  if rclc ≠ (← getNull) then setParent rclc (some node)

def rbtreeLeftRotate (node : Nat) : Program α PUnit := rotate .left node

def rbtreeRightRotate (node : Nat) : Program α PUnit := rotate .right node

def utilRbtreeInit : Program α PUnit := do
  let s ← get
  setColor s.null .black
  setRoot s.null
  modify fun s => { s with size := 0 }

section Inserting

/-- The loop that finds the insert position, with the last node that it passed. -/
def insertPosition (key : Int) : (turns x y : Nat) → Program α Nat
  | 0, _, _ => throw .outOfTurns
  | turns + 1, x, y => do
      if x = (← getNull) then return y
      else if key < (← keyOf x) then insertPosition key turns (← child .left x) x
      else insertPosition key turns (← child .right x) x

/-- Case 1 of `rbtree_insert_fixup`, with the next value of `node`. -/
def pushBlack (u p : Nat) : Program α Nat := do
  setColor u .black
  setColor p .black
  setColor (← parent p) .red
  parent p

/-- Case 2 of `rbtree_insert_fixup`, with `node` and `p` behind it. -/
def straighten (side : Side) (node p : Nat) : Program α (Nat × Nat) := do
  if node = (← child side.other p) then
    rotate side p
    return (p, ← parent p)
  else return (node, p)

/-- Case 3 of `rbtree_insert_fixup`. -/
def liftParent (side : Side) (p : Nat) : Program α PUnit := do
  setColor p .black
  setColor (← parent p) .red
  rotate side.other (← parent p)

/-- A turn of the loop of `rbtree_insert_fixup` where the parent is the child of the
grandparent on the given side, with the next value of `node`. -/
def insertFixupOn (side : Side) (node p : Nat) : Program α Nat := do
  let u ← child side.other (← parent p)
  if (← colorOf u) = .red then pushBlack u p
  else
    let (node, p) ← straighten side node p
    liftParent side p
    return node

def rbtreeInsertFixup : (turns node : Nat) → Program α PUnit
  | 0, _ => throw .outOfTurns
  | turns + 1, node => do
      if (← colorOf (← parent node)) = .red then
        let p ← parent node
        if p = (← child .left (← parent p)) then
          rbtreeInsertFixup turns (← insertFixupOn .left node p)
        else rbtreeInsertFixup turns (← insertFixupOn .right node p)
      else setColor (← getRoot) .black

/-- `util_rbtree_insert` up to where the node is in the tree. -/
def hang (node : Nat) : Program α PUnit := do
  if (← getRoot) = (← getNull) then
    setRoot node
    setParent node (some (← getNull))
  else
    let y ← insertPosition (← keyOf node) (← maxTurns) (← getRoot) (← getNull)
    setParent node (some y)
    if (← keyOf node) < (← keyOf y) then setChild .left y node else setChild .right y node

/-- `util_rbtree_insert` of a node that is no NULL pointer. -/
def utilRbtreeInsert (node : Nat) : Program α PUnit := do
  if node = (← getNull) then return
  hang node
  setChild .left node (← getNull)
  setChild .right node (← getNull)
  setColor node .red
  rbtreeInsertFixup (← maxTurns) node
  modify fun s => { s with size := s.size + 1 }

end Inserting

section Deleting

/-- `util_rbsubtree_min` and `util_rbsubtree_max` of a subtree that is not empty, and the
way down to the given side. -/
def outermost (side : Side) : (turns node : Nat) → Program α Nat
  | 0, _ => throw .outOfTurns
  | turns + 1, node => do
      if (← child side node) = (← getNull) then return node
      else outermost side turns (← child side node)

def utilRbsubtreeMin (node : Nat) : Program α (Option Nat) := do
  if node = (← getNull) then return none
  else return some (← outermost .left (← maxTurns) node)

def utilRbsubtreeMax (node : Nat) : Program α (Option Nat) := do
  if node = (← getNull) then return none
  else return some (← outermost .right (← maxTurns) node)

/-- A red sibling comes up above the parent, with the black sibling behind it. -/
def blackSibling (side : Side) (node w : Nat) : Program α Nat := do
  if (← colorOf w) = .red then
    setColor w .black
    setColor (← parent node) .red
    rotate side (← parent node)
    child side.other (← parent node)
  else return w

/-- Where the far child of the sibling is black, the near one comes up, with the sibling
behind it. -/
def redFarChild (side : Side) (node w : Nat) : Program α Nat := do
  if (← colorOf (← child side.other w)) = .black then
    setColor (← child side w) .black
    setColor w .red
    rotate side.other w
    child side.other (← parent node)
  else return w

/-- The sibling comes up above the parent and takes its colour. -/
def liftSibling (side : Side) (node w : Nat) : Program α PUnit := do
  setColor w (← colorOf (← parent node))
  setColor (← parent node) .black
  setColor (← child side.other w) .black
  rotate side (← parent node)

/-- Both children of the sibling are black, the right one read only behind a black left one. -/
def blackChildren (w : Nat) : Program α Bool := do
  if (← colorOf (← child .left w)) = .black then
    return (← colorOf (← child .right w)) = .black
  else return false

/-- The end of a turn, with a black sibling. -/
def settle (side : Side) (node w : Nat) : Program α Nat := do
  if ← blackChildren w then
    setColor w .red
    parent node
  else
    liftSibling side node (← redFarChild side node w)
    getRoot

/-- A turn of the loop of `rbtree_delete_fixup` for a node that is the child on the given
side, with the next value of `node`. -/
def deleteFixupOn (side : Side) (node : Nat) : Program α Nat := do
  let w ← child side.other (← parent node)
  settle side node (← blackSibling side node w)

def rbtreeDeleteFixup : (turns node : Nat) → Program α PUnit
  | 0, _ => throw .outOfTurns
  | turns + 1, node => do
      if node ≠ (← getRoot) ∧ (← colorOf node) = .black then
        if node = (← child .left (← parent node)) then
          rbtreeDeleteFixup turns (← deleteFixupOn .left node)
        else rbtreeDeleteFixup turns (← deleteFixupOn .right node)
      else setColor node .black

/-- The node that leaves its position, and what takes its place there. -/
def findDeleted (node : Nat) : Program α (Nat × Nat) := do
  let null ← getNull
  if (← child .left node) = null then return (node, ← child .right node)
  else if (← child .right node) = null then return (node, ← child .left node)
  else
    let temp ← follow (← utilRbsubtreeMin (← child .right node))
    if (← child .left temp) ≠ null then return (temp, ← child .left temp)
    else return (temp, ← child .right temp)

/-- `temp` leaves its position to `subst`, whose parent is `temp` where `temp` will come
to stand above it. -/
def detach (node temp subst : Nat) : Program α PUnit := do
  if (← parent temp) = node then setParent subst (some temp)
  else setParent subst (← nodeAt temp).parent
  relink (← parent temp) temp subst

/-- `if(temp->left != _NULL(rbtree)) temp->left->parent = temp`, on either side. -/
def adopt (side : Side) (temp : Nat) : Program α PUnit := do
  if (← child side temp) ≠ (← getNull) then setParent (← child side temp) (some temp)

/-- `temp`, which has left its position, replaces `node`. -/
def takePlace (temp node : Nat) : Program α PUnit := do
  setParent temp (← nodeAt node).parent
  replace node temp
  setChild .right temp (← child .right node)
  setChild .left temp (← child .left node)
  adopt .left temp
  adopt .right temp
  setColor temp (← colorOf node)

/-- `util_rbtree_delete` of a node that is no NULL pointer. -/
def utilRbtreeDelete (node : Nat) : Program α PUnit := do
  if node = (← getNull) then return
  modify fun s => { s with size := s.size - 1 }
  let (temp, subst) ← findDeleted node
  if temp = (← getRoot) then
    setRoot subst
    setColor subst .black
    rbtClearNode temp
  else
    let color ← colorOf temp
    detach node temp subst
    if temp ≠ node then takePlace temp node
    rbtClearNode node
    if color = .black then rbtreeDeleteFixup (← maxTurns) subst

end Deleting

section Searching

def searchFrom (key : Int) : (turns node : Nat) → Program α (Option Nat)
  | 0, _ => throw .outOfTurns
  | turns + 1, node => do
      if node = (← getNull) then return none
      else if key < (← keyOf node) then searchFrom key turns (← child .left node)
      else if (← keyOf node) < key then searchFrom key turns (← child .right node)
      else return some node

def utilRbtreeSearch (key : Int) : Program α (Option Nat) := do
  searchFrom key (← maxTurns) (← getRoot)

/-- The loop of `util_rbtree_lookup`, with the last node that was not too small. -/
def lookupFrom (key : Int) : (turns temp : Nat) → Option Nat → Program α (Option Nat)
  | 0, _, _ => throw .outOfTurns
  | turns + 1, temp, node => do
      if temp = (← getNull) then return node
      else if key ≤ (← keyOf temp) then lookupFrom key turns (← child .left temp) (some temp)
      else lookupFrom key turns (← child .right temp) node

def utilRbtreeLookup (key : Int) : Program α (Option Nat) := do
  if (← getRoot) = (← getNull) then return none
  else
    match ← lookupFrom key (← maxTurns) (← getRoot) none with
    | some node => return some node
    | none => utilRbsubtreeMin (← getRoot)

end Searching

section Traveling

variable {σ : Type}

end Traveling

end FastDCS.RbTrees
