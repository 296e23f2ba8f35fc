import FastDCS.Towers

/-!
The list of `skip_list.cc`: its functions, and what their loops over the levels
find in a list whose values are in order.
-/

namespace FastDCS.SkipLists

open Heaps
open Towers

def skiplistLevelMax : Nat := 8

def skiplistCmpNormalize (cmp : Int) : Ordering :=
  if cmp ≤ -1 then .lt else if 1 ≤ cmp then .gt else .eq

/-- What the caller of the list gives: a total order, which may have equal values
that are not the same, and a function that looks for a place in this order. -/
structure Comparison (α σ : Type) where
  cmpFn : α → α → Int
  searchFn : α → σ → Int
  trans : Std.TransCmp fun v w => skiplistCmpNormalize (cmpFn v w)
  consistent : ∀ v w search, skiplistCmpNormalize (cmpFn v w) = .lt →
    skiplistCmpNormalize (searchFn w search) ≠ .gt → skiplistCmpNormalize (searchFn v search) = .lt

/-- The nodes have values, which are no NULL pointers, save the header. `levels` is
the number of the levels, one more than `list->level`. -/
structure SkipList (α : Type) where
  nodes : Heap (Node (Option α))
  header : Nat
  levels : Nat
  length : Nat

inductive Op
  | gotoNextLevel
  | gotoNextNode
  | finish

/-- Where a loop over the levels ends. -/
inductive Walked
  | finish (fwdNode : Nat)
  | bottom (curNode : Nat) (update : Nat → Option Nat)

variable {α σ : Type}

def Comparison.order (C : Comparison α σ) (v w : α) : Ordering :=
  skiplistCmpNormalize (C.cmpFn v w)

def skiplistNodeNew (level : Nat) (value : Option α) : Node (Option α) :=
  ⟨value, List.replicate (level + 1) none⟩

def skiplistInit : SkipList α where
  nodes := Heap.empty.alloc (skiplistNodeNew skiplistLevelMax none)
  header := 0
  levels := 1
  length := 0

/-- The four functions that choose how to go on from a node. -/
def op (finishes : Bool) (cmp : α → Int) (nodes : Heap (Node (Option α))) :
    Option Nat → Option Op
  | none => some .gotoNextLevel
  | some fwdNode => do
      let node ← nodes.find? fwdNode
      let value ← node.value
      match skiplistCmpNormalize (cmp value) with
      | .lt => some .gotoNextNode
      | .eq => some (if finishes then .finish else .gotoNextLevel)
      | .gt => some .gotoNextLevel

def opInsert (C : Comparison α σ) (nodes : Heap (Node (Option α))) (value : α) :
    Option Nat → Option Op :=
  op true (C.cmpFn · value) nodes

def opDelete (C : Comparison α σ) (nodes : Heap (Node (Option α))) (value : α) :
    Option Nat → Option Op :=
  op false (C.cmpFn · value) nodes

def opContains (C : Comparison α σ) (nodes : Heap (Node (Option α))) (value : α) :
    Option Nat → Option Op :=
  op true (C.cmpFn · value) nodes

def opSearch (C : Comparison α σ) (nodes : Heap (Node (Option α))) (search : σ) :
    Option Nat → Option Op :=
  op true (C.searchFn · search) nodes

/-- The loop over the levels, from the level below `levels` down to 0. It has no
result where it reads what is not there, or is out of turns. The functions that only
look for a value have no `update`. -/
def walk (nodes : Heap (Node (Option α))) (choose : Option Nat → Option Op) :
    (turns curNode levels : Nat) → (Nat → Option Nat) → Option Walked
  | _, curNode, 0, update => some (.bottom curNode update)
  | 0, _, _ + 1, _ => none
  | turns + 1, curNode, level + 1, update =>
      (forward? nodes curNode level).bind fun fwdNode =>
        match choose fwdNode, fwdNode with
        | some .finish, some p => some (.finish p)
        | some .gotoNextNode, some p =>
            walk nodes choose turns p (level + 1) (Function.update update level (some p))
        | some .gotoNextLevel, _ =>
            walk nodes choose turns curNode level (Function.update update level (some curNode))
        | _, _ => none

/-- Every turn of the loop goes to a node behind or to a level below. -/
def SkipList.walk (list : SkipList α) (choose : Option Nat → Option Op) : Option Walked :=
  SkipLists.walk list.nodes choose (list.length + list.levels) list.header list.levels
    fun _ => none

/-- One turn of the loop of `skiplist_insert` that puts the new node in. -/
def dropIn (newNode : Nat) (update : Nat → Option Nat) (nodes : Heap (Node (Option α)))
    (level : Nat) : Option (Heap (Node (Option α))) := do
  let before ← update level
  let next ← forward? nodes before level
  let nodes ← setForward nodes newNode level next
  setForward nodes before level (some newNode)

/-- `skiplist_insert` behind its loop over the levels. -/
def SkipList.insertNew (list : SkipList α) (update : Nat → Option Nat) (value : α)
    (newNodeLevel : Nat) : Option (SkipList α) := do
  let update := fun level =>
    if list.levels ≤ level ∧ level ≤ newNodeLevel then some list.header else update level
  let levels := if list.levels ≤ newNodeLevel then newNodeLevel + 1 else list.levels
  let nodes := list.nodes.alloc (skiplistNodeNew newNodeLevel (some value))
  let nodes ← (List.range (newNodeLevel + 1)).foldlM (dropIn list.nodes.next update) nodes
  return ⟨nodes, list.header, levels, list.length + 1⟩

/-- One turn of the loop of `skiplist_delete` that splices the node out. -/
def splice (foundNode : Nat) (update : Nat → Option Nat) (nodes : Heap (Node (Option α)))
    (level : Nat) : Option (Heap (Node (Option α))) := do
  let before ← update level
  let next ← forward? nodes before level
  if next = some foundNode then
    let behind ← forward? nodes foundNode level
    setForward nodes before level behind
  else return nodes

/-- The loop of `skiplist_delete` that removes unused levels. -/
def usedLevels (forward : List (Option Nat)) : Nat → Option Nat
  | 0 => some 0
  | level + 1 =>
      forward[level]?.bind fun next =>
        if next.isSome then some (level + 1) else usedLevels forward level

/-- `skiplist_delete` where it has found the node. -/
def SkipList.remove (list : SkipList α) (update : Nat → Option Nat) (foundNode : Nat) :
    Option (SkipList α) := do
  let nodes ← (List.range list.levels).foldlM (splice foundNode update) list.nodes
  let nodes ← nodes.delete foundNode
  let header ← nodes.find? list.header
  let levels ← usedLevels header.forward list.levels
  return ⟨nodes, list.header, levels, list.length - 1⟩

/-- `skiplist_delete` behind its loop over the levels. -/
def SkipList.deleteAt (list : SkipList α) (C : Comparison α σ) (value : α) (curNode : Nat)
    (update : Nat → Option Nat) : Option (Bool × SkipList α) := do
  match ← forward? list.nodes curNode 0 with
  | none => return (false, list)
  | some foundNode =>
      let node ← list.nodes.find? foundNode
      let found ← node.value
      if C.cmpFn found value ≥ 1 then return (false, list)
      let list ← list.remove update foundNode
      return (true, list)

def skiplistDelete (C : Comparison α σ) (list : SkipList α) (value : α) :
    Option (Bool × SkipList α) :=
  (list.walk (opDelete C list.nodes value)).bind fun walked =>
    match walked with
    | .finish _ => none
    | .bottom curNode update => list.deleteAt C value curNode update

/-- `skiplist_insert` with a number of calls that it may make of itself. -/
def insertIn (C : Comparison α σ) (value : α) (newNodeLevel : Nat) :
    Nat → SkipList α → Option (Bool × SkipList α)
  | 0, _ => none
  | calls + 1, list =>
      (list.walk (opInsert C list.nodes value)).bind fun walked =>
        match walked with
        | .finish fwdNode => do
            let node ← list.nodes.find? fwdNode
            let old ← node.value
            let (deleted, list) ← skiplistDelete C list old
            if deleted then insertIn C value newNodeLevel calls list else return (false, list)
        | .bottom _ update => (list.insertNew update value newNodeLevel).map (true, ·)

/-- An equal value is deleted first, and then the call that inserts finds none. -/
def skiplistInsert (C : Comparison α σ) (list : SkipList α) (value : α) (newNodeLevel : Nat) :
    Option (Bool × SkipList α) :=
  insertIn C value newNodeLevel 2 list

def skiplistContains (C : Comparison α σ) (list : SkipList α) (value : α) : Option Bool :=
  (list.walk (opContains C list.nodes value)).map fun walked =>
    match walked with
    | .finish _ => true
    | .bottom _ _ => false

def skiplistSearch (C : Comparison α σ) (list : SkipList α) (search : σ) : Option (Option α) :=
  (list.walk (opSearch C list.nodes search)).bind fun walked =>
    match walked with
    | .finish fwdNode => (list.nodes.find? fwdNode).map Node.value
    | .bottom _ _ => some none

/-- `skiplist_iter_next`: the node it goes to and the value it returns. -/
def skiplistIterNext (list : SkipList α) (curNode : Nat) : Option (Option Nat × Option α) := do
  match ← forward? list.nodes curNode 0 with
  | none => return (none, none)
  | some next =>
      let node ← list.nodes.find? next
      return (some next, node.value)

/-- The values that `skiplist_iter_next` returns up to the first NULL. -/
def iterateFrom (list : SkipList α) : (turns curNode : Nat) → Option (List α)
  | 0, _ => none
  | turns + 1, curNode => do
      match ← skiplistIterNext list curNode with
      | (some next, some value) => (iterateFrom list turns next).map (value :: ·)
      | _ => return []

def SkipList.iterate (list : SkipList α) : Option (List α) :=
  iterateFrom list (list.length + 1) list.header

end FastDCS.SkipLists
