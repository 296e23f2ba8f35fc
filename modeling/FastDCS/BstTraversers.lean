import Mathlib.Data.List.Nodup
import FastDCS.BstTables
import FastDCS.TreeDepths

/-!
`config_bst.cc`: a traverser, with the stack of the nodes above its node.
-/

namespace FastDCS.BstTraversers

open FastDCS.SearchTrees
open FastDCS.SearchTrees.SearchTree
open FastDCS.BstTables

universe u v

/-- `bst_traverser`. A pointer to a node is the item in it, and its links are those that
the tree has where the pointer is followed. `bst_height` is the length of the stack. -/
structure Traverser (α : Type u) where
  node : Option α := none
  stack : List α := []
  generation : UInt64 := 0
deriving DecidableEq

variable {α : Type u} {κ : Type v} [LinearOrder κ] (key : α → κ)

/-- The item of the node that a link points to. -/
def item? : SearchTree α → Option α
  | .leaf => none
  | .node _ item _ => some item

/-- `x->bst_link[1]`. -/
def rightLink (root : SearchTree α) (x : α) : SearchTree α :=
  match root.subtreeAt key (key x) with
  | .leaf => .leaf
  | .node _ _ right => right

/-- The loop down the left links, from a node `x` with what is on its left. It ends with
the stack and the last node, or early with a full stack. -/
def descend : SearchTree α → α → List α → Except (List α) (List α × α)
  | .leaf, x, stack => .ok (stack, x)
  | .node left y _, x, stack =>
      if bstMaxHeight ≤ stack.length then .error stack else descend left y (x :: stack)

/-- `bst_t_first`, with the number of nested calls there is room for. -/
def bstTFirst : Nat → BstTable α → Except Abort (Option α × BstTable α × Traverser α)
  | 0, _ => throw .unfinished
  | calls + 1, table =>
      match table.root with
      | .leaf => return (none, table, { generation := table.generation })
      | .node left x _ =>
          match descend left x [] with
          | .ok (stack, x) =>
              return (some x, table,
                { node := some x, stack := stack, generation := table.generation })
          | .error _ => do
              let table ← bstBalance table
              bstTFirst calls table

section Calls

variable [DecidableEq α]

/-- The loop of `trav_refresh`, from `i` on. -/
def refreshStack (x : α) : SearchTree α → List α → Except Abort (List α)
  | .leaf, _ => throw .assertion
  | .node left i right, stack =>
      if i = x then return stack
      else if bstMaxHeight ≤ stack.length then throw .assertion
      else if key i < key x then refreshStack x right (i :: stack)
      else refreshStack x left (i :: stack)

def travRefresh (table : BstTable α) (trav : Traverser α) : Except Abort (Traverser α) :=
  match trav.node with
  | none => return { trav with generation := table.generation }
  | some x => do
      let stack ← refreshStack key x table.root []
      return { trav with stack := stack, generation := table.generation }

/-- The loop up from a node `y` to the first one that `y` is not to the right of. -/
def climb (root : SearchTree α) (y : α) : List α → Option α × List α
  | [] => (none, [])
  | x :: stack =>
      if item? (rightLink key root x) = some y then climb root x stack else (some x, stack)

/-- `bst_t_next`. -/
def bstTNext : Nat → BstTable α → Traverser α →
    Except Abort (Option α × BstTable α × Traverser α)
  | 0, _, _ => throw .unfinished
  | calls + 1, table, trav => do
      let trav ← if trav.generation ≠ table.generation then travRefresh key table trav
        else pure trav
      match trav.node with
      | none => bstTFirst calls table
      | some x =>
          match rightLink key table.root x with
          | .node left y _ =>
              if bstMaxHeight ≤ trav.stack.length then
                let table ← bstBalance table
                bstTNext calls table trav
              else
                match descend left y (x :: trav.stack) with
                | .ok (stack, x) =>
                    return (some x, table, { trav with node := some x, stack := stack })
                | .error stack =>
                    let table ← bstBalance table
                    bstTNext calls table { trav with stack := stack }
          | .leaf =>
              let (x, stack) := climb key table.root x trav.stack
              return (x, table, { trav with node := x, stack := stack })

end Calls

section Places

variable {key} {root : SearchTree α}

/-- The stack holds the nodes above `x`, and `rest` comes behind it. -/
def Place (root : SearchTree α) (x : α) (stack rest : List α) : Prop :=
  ∃ above left right, root = plug above (node left x right) ∧
    stack = above.map Frame.item ∧ rest = right.toList ++ after above

theorem descend_spec {above : List (Frame α)} {left right : SearchTree α} {x : α}
    (hroot : root = plug above (node left x right)) :
    match descend left x (above.map Frame.item) with
    | .ok (stack, y) => (above.length ≤ bstMaxHeight → stack.length ≤ bstMaxHeight) ∧
        ∃ rest, left.toList ++ x :: (right.toList ++ after above) = y :: rest ∧
          Place root y stack rest
    | .error _ => bstMaxHeight + 1 < root.levels := by
  induction left generalizing above x right with
  | leaf =>
      rw [descend]
      refine ⟨?_, right.toList ++ after above, rfl, above, .leaf, right, hroot, rfl, rfl⟩
      rw [List.length_map]
      exact id
  | node left y mid ih _ =>
      rw [descend]
      split_ifs with hfull
      · rw [List.length_map] at hfull
        have hlevels := levels_plug above (node (node left y mid) x right)
        rw [← hroot, levels_node, levels_node] at hlevels
        dsimp only
        omega
      · rw [List.length_map, Nat.not_le] at hfull
        have hroot' : root = plug (.wentLeft x right :: above) (node left y mid) := hroot
        have hbelow := ih hroot'
        rw [List.map_cons] at hbelow
        have hitem : (Frame.wentLeft x right).item = x := rfl
        rw [hitem] at hbelow
        cases hrun : descend left y (x :: above.map Frame.item) with
        | error stack =>
            rw [hrun] at hbelow
            exact hbelow
        | ok found =>
            rw [hrun] at hbelow
            obtain ⟨hbound, rest, hlist, hplace⟩ := hbelow
            refine ⟨fun _ => hbound hfull, rest, ?_, hplace⟩
            rw [← hlist]
            simp [after]

theorem climb_spec [DecidableEq α] (hordered : root.Ordered key) {above : List (Frame α)} {tree : SearchTree α}
    {y : α} (hroot : root = plug above tree) (htop : item? tree = some y) :
    match climb key root y (above.map Frame.item) with
    | (none, stack) => stack = [] ∧ after above = []
    | (some x, stack) => stack.length ≤ above.length ∧
        ∃ rest, after above = x :: rest ∧ Place root x stack rest := by
  induction above generalizing tree y with
  | nil => exact ⟨rfl, rfl⟩
  | cons frame above ih =>
      rw [List.map_cons, climb]
      cases frame with
      | wentLeft x right =>
          have hplace : root = plug above (node tree x right) := hroot
          have hlink : rightLink key root x = right := by
            rw [rightLink, hplace, subtreeAt_place (hplace ▸ hordered)]
          have hne : item? right ≠ some y := by
            intro hright
            obtain ⟨⟨_, hbelow⟩, _, habove⟩ :=
              ordered_node.mp (ordered_of_plug (hplace ▸ hordered))
            cases tree with
            | leaf => cases htop
            | node treeLeft treeTop treeRight =>
                cases right with
                | leaf => cases hright
                | node rightLeft rightTop rightRight =>
                    obtain rfl := Option.some.inj htop
                    obtain rfl := Option.some.inj hright
                    exact absurd ((hbelow _ mem_node).trans (habove _ mem_node)) (lt_irrefl _)
          rw [Frame.item, if_neg (hlink.symm ▸ hne)]
          refine ⟨?_, right.toList ++ after above, rfl, above, tree, right, hplace, rfl, rfl⟩
          rw [List.length_map, List.length_cons]
          exact Nat.le_succ _
      | wentRight left x =>
          have hplace : root = plug above (node left x tree) := hroot
          have hlink : rightLink key root x = tree := by
            rw [rightLink, hplace, subtreeAt_place (hplace ▸ hordered)]
          rw [Frame.item, if_pos (hlink.symm ▸ htop)]
          have habove := ih hplace rfl
          cases hrun : climb key root x (above.map Frame.item) with
          | mk found stack =>
              rw [hrun] at habove
              cases found with
              | none => exact habove
              | some x' =>
                  refine ⟨habove.1.trans ?_, habove.2⟩
                  rw [List.length_cons]
                  exact Nat.le_succ _

/-- The way down to a node that is not too deep is found again. -/
theorem refreshStack_of_depth [DecidableEq α] {tree : SearchTree α}
    (hordered : tree.Ordered key) {x : α} (hx : x ∈ tree.toList) {stack : List α}
    (hdepth : stack.length + tree.depth key (key x) ≤ bstMaxHeight) :
    refreshStack key x tree stack = .ok (tree.path key (key x) stack) := by
  induction tree generalizing stack with
  | leaf => cases hx
  | node left i right ihLeft ihRight =>
      obtain ⟨⟨hleft, hbelow⟩, hright, habove⟩ := ordered_node.mp hordered
      rw [refreshStack]
      rcases List.mem_append.mp hx with hmem | hmem
      · have hlt := hbelow x hmem
        rw [depth_of_lt hlt] at hdepth
        rw [if_neg (fun heq => (heq ▸ hlt).false), if_neg (by omega), if_neg hlt.not_gt, path,
          if_pos hlt]
        exact ihLeft hleft hmem (by rw [List.length_cons]; omega)
      · rcases List.mem_cons.mp hmem with rfl | hmem
        · rw [if_pos rfl, path_top]
          rfl
        · have hgt := habove x hmem
          rw [depth_of_gt hgt] at hdepth
          rw [if_neg (fun heq => (heq ▸ hgt).false), if_neg (by omega), if_pos hgt, path,
            if_neg hgt.not_gt, if_pos hgt]
          exact ihRight hright hmem (by rw [List.length_cons]; omega)

/-- The path to an item is its place, wherever the tree has it. -/
theorem place_path (hordered : root.Ordered key) {done rest : List α} {x : α}
    (hlist : root.toList = done ++ x :: rest) :
    Place root x (root.path key (key x) []) rest := by
  have hx : x ∈ root.toList := by
    rw [hlist]
    exact List.mem_append_right _ List.mem_cons_self
  obtain ⟨above, left, right, rfl⟩ := exists_plug_of_mem hx
  refine ⟨above, left, right, rfl, path_place hordered, ?_⟩
  have hsplit : (before above ++ left.toList) ++ x :: (right.toList ++ after above) =
      done ++ x :: rest := by
    rw [← hlist, toList_plug]
    simp
  have hnodup := hordered.nodup
  rw [hlist, ← hsplit, List.nodup_middle, List.nodup_cons, List.mem_append, not_or] at hnodup
  obtain ⟨⟨hdone, hrest⟩, _⟩ := hnodup
  exact ((List.append_cons_inj_of_notMem hdone hrest).mp hsplit).2.2.symm

end Places

section Steps

variable {key} {table : BstTable α} {trav : Traverser α} {rest : List α}

/-- Where a traverser stands when `rest` is to come: without a node, that is everything. -/
structure Traversing (table : BstTable α) (trav : Traverser α) (rest : List α) : Prop where
  generation : trav.generation = table.generation
  bounded : trav.stack.length ≤ bstMaxHeight
  place : match trav.node with
    | none => rest = table.root.toList
    | some x => Place table.root x trav.stack rest

/-- What is to come after one more item; behind the last one it starts over. -/
def following (all : List α) : List α → List α
  | [] => all
  | _ :: rest => rest

/-- A call goes on to the next item in the table as it is, or finds the tree too deep for
its stack and balances it first. -/
def Tried (table : BstTable α) (rest : List α)
    (again : BstTable α → Except Abort (Option α × BstTable α × Traverser α))
    (outcome : Except Abort (Option α × BstTable α × Traverser α)) : Prop :=
  (∃ trav, outcome = .ok (trav.node, table, trav) ∧ trav.node = rest.head? ∧
    Traversing table trav (following table.root.toList rest)) ∨
  (bstMaxHeight + 1 < table.root.levels ∧ outcome = bstBalance table >>= again)

theorem tried_first (calls : Nat) (table : BstTable α) :
    Tried table table.root.toList (bstTFirst calls) (bstTFirst (calls + 1) table) := by
  rw [bstTFirst]
  cases hroot : table.root with
  | leaf =>
      refine Or.inl ⟨{ generation := table.generation }, rfl, rfl, rfl, Nat.zero_le _, ?_⟩
      rw [hroot]
      rfl
  | node left x right =>
      have hroot' : table.root = plug [] (.node left x right) := hroot
      have hdescend := descend_spec hroot'
      rw [List.map_nil] at hdescend
      dsimp only
      cases hrun : descend left x [] with
      | error stack =>
          rw [hrun] at hdescend
          exact Or.inr ⟨hdescend, rfl⟩
      | ok found =>
          rw [hrun] at hdescend
          obtain ⟨hbound, rest, hlist, hplace⟩ := hdescend
          rw [after, List.append_nil] at hlist
          refine Or.inl ⟨{ node := some found.2, stack := found.1, generation := table.generation },
            rfl, ?_, rfl, hbound (Nat.zero_le _), ?_⟩
          · rw [toList_node, hlist]
            rfl
          · rw [toList_node, hlist]
            exact hplace

theorem tried_next [DecidableEq α] (hordered : table.root.Ordered key)
    (htrav : Traversing table trav rest) {x : α} (hnode : trav.node = some x) (calls : Nat) :
    ∃ stack, Tried table rest (fun table => bstTNext key calls table { trav with stack := stack })
      (bstTNext key (calls + 1) table trav) := by
  obtain ⟨hgeneration, hbounded, hplace⟩ := htrav
  obtain ⟨node, stack, generation⟩ := trav
  obtain rfl : node = some x := hnode
  obtain ⟨above, left, right, hroot, hstack, rfl⟩ := hplace
  dsimp only at hgeneration hbounded hstack
  have hlink : rightLink key table.root x = right := by
    rw [rightLink, hroot, subtreeAt_place (hroot ▸ hordered)]
  rw [bstTNext, if_neg (not_not.mpr hgeneration), pure_bind]
  dsimp only
  rw [hlink]
  cases right with
  | leaf =>
      have hclimb := climb_spec hordered hroot rfl
      rw [← hstack] at hclimb
      refine ⟨[], Or.inl ?_⟩
      dsimp only
      cases hrun : climb key table.root x stack with
      | mk found stack' =>
          rw [hrun] at hclimb
          cases found with
          | none =>
              obtain ⟨rfl, hafter⟩ := hclimb
              refine ⟨{ node := none, stack := [], generation := generation }, rfl, ?_,
                hgeneration, Nat.zero_le _, ?_⟩
              · rw [hafter]
                rfl
              · rw [hafter]
                rfl
          | some y =>
              obtain ⟨hshort, rest, hafter, hplace⟩ := hclimb
              rw [hstack, List.length_map] at hbounded
              refine ⟨{ node := some y, stack := stack', generation := generation }, rfl, ?_,
                hgeneration, hshort.trans hbounded, ?_⟩
              · rw [hafter]
                rfl
              · rw [hafter]
                exact hplace
  | node rightLeft y rightRight =>
      dsimp only
      split_ifs with hfull
      · have hlevels := levels_plug above (SearchTree.node left x (.node rightLeft y rightRight))
        rw [← hroot, levels_node, levels_node] at hlevels
        rw [hstack, List.length_map] at hfull
        exact ⟨stack, Or.inr ⟨by omega, rfl⟩⟩
      · have hroot' : table.root = plug (.wentRight left x :: above)
            (SearchTree.node rightLeft y rightRight) := hroot
        have hdescend := descend_spec hroot'
        have hitem : (Frame.wentRight left x).item = x := rfl
        rw [List.map_cons, hitem, ← hstack] at hdescend
        cases hrun : descend rightLeft y (x :: stack) with
        | error stack' =>
            rw [hrun] at hdescend
            exact ⟨stack', Or.inr ⟨hdescend, rfl⟩⟩
        | ok found =>
            rw [hrun] at hdescend
            obtain ⟨hbound, rest, hlist, hplace⟩ := hdescend
            rw [hstack, List.length_map, Nat.not_le] at hfull
            rw [after] at hlist
            refine ⟨[], Or.inl
              ⟨{ node := some found.2, stack := found.1, generation := generation }, rfl, ?_,
                hgeneration, hbound hfull, ?_⟩⟩
            · rw [toList_node, List.append_assoc, List.cons_append, hlist]
              rfl
            · rw [toList_node, List.append_assoc, List.cons_append, hlist]
              exact hplace

theorem Tried.ok {again : BstTable α → Except Abort (Option α × BstTable α × Traverser α)}
    {outcome : Except Abort (Option α × BstTable α × Traverser α)}
    (h : Tried table rest again outcome) (hlevels : table.root.levels ≤ bstMaxHeight + 1) :
    ∃ trav, outcome = .ok (trav.node, table, trav) ∧ trav.node = rest.head? ∧
      Traversing table trav (following table.root.toList rest) :=
  h.resolve_right fun hdeep => Nat.not_lt.mpr hlevels hdeep.1

/-- What one call with `rest` to come does. The table is balanced only where it is too
deep, and the program ends only where it is too large for that, too. -/
structure Stepped (key : α → κ) (table : BstTable α) (rest : List α) (x : Option α)
    (table' : BstTable α) (trav : Traverser α) : Prop where
  returned : x = rest.head?
  node : trav.node = rest.head?
  traversing : Traversing table' trav (following table.root.toList rest)
  items : table'.root.toList = table.root.toList
  intact : Intact key table'
  same : table.root.levels ≤ bstMaxHeight + 1 ∨ 2 ^ bstMaxHeight ≤ table.root.size →
    table' = table

def Steps (key : α → κ) (table : BstTable α) (rest : List α) :
    Except Abort (Option α × BstTable α × Traverser α) → Prop
  | .ok (x, table', trav) => Stepped key table rest x table' trav
  | .error abort => abort = .treeTooBig ∧ bstMaxHeight + 1 < table.root.levels ∧
      2 ^ bstMaxHeight ≤ table.root.size

theorem Tried.steps {again : BstTable α → Except Abort (Option α × BstTable α × Traverser α)}
    {outcome : Except Abort (Option α × BstTable α × Traverser α)}
    (h : Tried table rest again outcome) (hintact : Intact key table)
    (hagain : ∀ table', Intact key table' → table'.root.toList = table.root.toList →
      table'.root.levels ≤ bstMaxHeight → table'.generation = table.generation + 1 →
      ∃ trav, again table' = .ok (trav.node, table', trav) ∧ trav.node = rest.head? ∧
        Traversing table' trav (following table'.root.toList rest)) :
    Steps key table rest outcome := by
  rcases h with ⟨trav, rfl, hnode, htrav⟩ | ⟨hdeep, rfl⟩
  · exact ⟨hnode, hnode, htrav, rfl, hintact, fun _ => rfl⟩
  · rcases Nat.lt_or_ge table.root.size (2 ^ bstMaxHeight) with hsmall | hbig
    · have hpos : 0 < table.root.size := by
        cases hroot : table.root with
        | leaf =>
            rw [hroot] at hdeep
            exact absurd hdeep (Nat.not_lt_zero _)
        | node left x right => exact Nat.succ_pos _
      obtain ⟨table', hbalance, hintact', hlist, hlevels, hgeneration⟩ :=
        bstBalance_spec hintact hpos hsmall
      obtain ⟨trav, hrun, hnode, htrav⟩ := hagain table' hintact' hlist hlevels hgeneration
      have hbind : (bstBalance table >>= again) = again table' := by
        rw [hbalance]
        rfl
      rw [hbind, hrun]
      rw [hlist] at htrav
      refine ⟨hnode, hnode, htrav, hlist, hintact', ?_⟩
      rintro (hshallow | hbig)
      · exact absurd hdeep (Nat.not_lt.mpr hshallow)
      · exact absurd hsmall (Nat.not_lt.mpr hbig)
    · rw [bstBalance_tooBig hintact hbig]
      exact ⟨rfl, hdeep, hbig⟩

/-- `bst_t_first` needs no more than a second call of itself. -/
theorem bstTFirst_steps (hintact : Intact key table) (calls : Nat) :
    Steps key table table.root.toList (bstTFirst (calls + 2) table) := by
  refine (tried_first (calls + 1) table).steps hintact fun table' _ hlist hlevels _ => ?_
  have hfirst := (tried_first calls table').ok (hlevels.trans (Nat.le_succ _))
  rw [hlist] at hfirst ⊢
  exact hfirst

theorem generation_ne (generation : UInt64) : generation ≠ generation + 1 := by
  intro heq
  have hnat := congrArg UInt64.toNat heq
  have hlt := generation.toNat_lt
  rw [UInt64.toNat_add] at hnat
  have hone : (1 : UInt64).toNat = 1 := rfl
  rw [hone] at hnat
  omega

/-- A call with a traverser of an older generation starts with `trav_refresh`. -/
theorem bstTNext_stale [DecidableEq α] (trav : Traverser α) {refreshed : Traverser α}
    (hstale : trav.generation ≠ table.generation)
    (hrefresh : travRefresh key table trav = .ok refreshed)
    (hgeneration : refreshed.generation = table.generation) (calls : Nat) :
    bstTNext key (calls + 1) table trav = bstTNext key (calls + 1) table refreshed := by
  rw [bstTNext, bstTNext, if_pos hstale, if_neg (not_not.mpr hgeneration), hrefresh]
  rfl

theorem Place.exists_toList {root : SearchTree α} {x : α} {stack rest : List α}
    (h : Place root x stack rest) : ∃ done, root.toList = done ++ x :: rest := by
  obtain ⟨above, left, right, rfl, _, rfl⟩ := h
  refine ⟨before above ++ left.toList, ?_⟩
  rw [toList_plug]
  simp

theorem Place.length_lt {root : SearchTree α} {x : α} {stack rest : List α}
    (h : Place root x stack rest) : stack.length < root.levels := by
  obtain ⟨above, left, right, rfl, rfl, _⟩ := h
  have hlevels := levels_plug above (SearchTree.node left x right)
  rw [levels_node] at hlevels
  rw [List.length_map]
  omega

theorem Place.mem {root : SearchTree α} {x : α} {stack rest : List α}
    (h : Place root x stack rest) : x ∈ root.toList := by
  obtain ⟨done, hlist⟩ := h.exists_toList
  rw [hlist]
  exact List.mem_append_right _ List.mem_cons_self

theorem Place.path_eq {root : SearchTree α} {x : α} {stack rest : List α}
    (h : Place root x stack rest) (hordered : root.Ordered key) :
    root.path key (key x) [] = stack := by
  obtain ⟨above, left, right, rfl, rfl, _⟩ := h
  exact path_place hordered

/-- `trav_refresh` comes back to the node with the same items to come. -/
theorem travRefresh_spec [DecidableEq α] {table' : BstTable α} (hintact : Intact key table')
    {x : α} (hplace : Place table.root x trav.stack rest)
    (hlist : table'.root.toList = table.root.toList)
    (hlevels : table'.root.levels ≤ bstMaxHeight) (trav' : Traverser α)
    (hnode : trav'.node = some x) :
    ∃ refreshed, travRefresh key table' trav' = .ok refreshed ∧ refreshed.node = some x ∧
      Traversing table' refreshed rest := by
  obtain ⟨done, hsplit⟩ := hplace.exists_toList
  rw [← hlist] at hsplit
  have hplace' := place_path hintact.ordered hsplit
  have hrefresh : refreshStack key x table'.root [] =
      .ok (table'.root.path key (key x) []) := by
    have hdepth := depth_lt_levels hintact.ordered hplace'.mem
    apply refreshStack_of_depth hintact.ordered hplace'.mem
    rw [List.length_nil, Nat.zero_add]
    exact hdepth.le.trans hlevels
  refine ⟨{ trav' with
    stack := table'.root.path key (key x) []
    generation := table'.generation }, ?_, hnode, rfl, ?_, ?_⟩
  · rw [travRefresh, hnode]
    dsimp only
    rw [hrefresh]
    rfl
  · exact hplace'.length_lt.le.trans hlevels
  · rw [hnode]
    exact hplace'

/-- `bst_t_next` needs no more than a second call of itself, or of `bst_t_first` and a
second one of that. -/
theorem bstTNext_steps [DecidableEq α] (hintact : Intact key table)
    (htrav : Traversing table trav rest) (calls : Nat) :
    Steps key table rest (bstTNext key (calls + 3) table trav) := by
  cases hnode : trav.node with
  | none =>
      have hplace := htrav.place
      rw [hnode] at hplace
      obtain rfl : rest = table.root.toList := hplace
      rw [bstTNext, if_neg (not_not.mpr htrav.generation), pure_bind]
      dsimp only
      rw [hnode]
      exact bstTFirst_steps hintact calls
  | some x =>
      have hplace := htrav.place
      rw [hnode] at hplace
      obtain ⟨stack, htried⟩ := tried_next hintact.ordered htrav hnode (calls + 2)
      refine htried.steps hintact fun table' hintact' hlist hlevels hgeneration => ?_
      obtain ⟨refreshed, hrefresh, hnode', htrav'⟩ := travRefresh_spec hintact' hplace hlist
        hlevels { trav with stack := stack } hnode
      have hstale : trav.generation ≠ table'.generation := by
        rw [hgeneration, htrav.generation]
        exact generation_ne _
      have hrun := bstTNext_stale { trav with stack := stack } hstale hrefresh htrav'.generation
        (calls + 1)
      rw [hrun]
      obtain ⟨_, hagain⟩ := tried_next hintact'.ordered htrav' hnode' (calls + 1)
      exact hagain.ok (hlevels.trans (Nat.le_succ _))

end Steps

end FastDCS.BstTraversers
