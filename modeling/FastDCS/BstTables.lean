import Mathlib.Data.List.Induction
import FastDCS.TreeContexts

/-!
`config_bst.cc`: the table around a search tree, and `bst_balance`, which turns the
tree into a vine of left links and folds the vine up again.
-/

namespace FastDCS.BstTables

open FastDCS.SearchTrees
open FastDCS.SearchTrees.SearchTree

universe u v

def bstMaxHeight : Nat := 32

/-- How the program ends inside of a call: an assertion fails, a NULL pointer is
followed, or `bst_balance` leaves with `exit`. `unfinished` is a call that has used up
the nested calls it was given. -/
inductive Abort where
  | assertion
  | nullPointer
  | treeTooBig
  | unfinished
deriving DecidableEq

/-- `bst_table`; the comparison function is the order of the keys. -/
structure BstTable (α : Type u) where
  root : SearchTree α := .leaf
  count : Nat := 0
  generation : UInt64 := 0
deriving DecidableEq

variable {α : Type u}

/-- `bst_probe`, which counts the nodes it makes. -/
def BstTable.probe {κ : Type v} [LinearOrder κ] (key : α → κ) (item : α) (table : BstTable α) :
    BstTable α :=
  { table with
    root := table.root.probe key item
    count := if (table.root.find key (key item)).isSome then table.count else table.count + 1 }

/-- The table around a tree whose nodes `bst_probe` has counted. -/
def BstTable.ofRoot (root : SearchTree α) : BstTable α := { root := root, count := root.size }

theorem BstTable.ofRoot_probe {κ : Type v} [LinearOrder κ] (key : α → κ) (item : α)
    (root : SearchTree α) :
    (BstTable.ofRoot root).probe key item = BstTable.ofRoot (root.probe key item) := by
  rw [BstTable.ofRoot, BstTable.ofRoot, BstTable.probe, size_probe]

/-- `tree_to_vine`: where there is no right link the walk goes on to the left, else the
right child is rotated up. -/
def treeToVine : SearchTree α → SearchTree α
  | .leaf => .leaf
  | .node left item .leaf => .node (treeToVine left) item .leaf
  | .node left item (.node left' item' right') =>
      treeToVine (.node (.node left item left') item' right')
termination_by tree =>
  (tree.size, match tree with
    | .leaf => 0
    | .node _ _ right => right.size)
decreasing_by
  · exact Prod.Lex.left _ _ (by rw [size_node]; omega)
  · have hsize : (SearchTree.node (.node left item left') item' right').size =
        (SearchTree.node left item (.node left' item' right')).size := by
      simp only [size_node]
      omega
    rw [hsize]
    exact Prod.Lex.right _ (by rw [size_node]; omega)

/-- `compress`, with the tree that hangs from `root`: of every two nodes of the main vine
the upper one becomes the right child of the lower one. -/
def compress : Nat → SearchTree α → Except Abort (SearchTree α)
  | 0, tree => return tree
  | count + 1, .node (.node rest black blackRight) red redRight => do
      let rest ← compress count rest
      return .node rest black (.node blackRight red redRight)
  | _ + 1, _ => throw .nullPointer

/-- The highest bit, which is left where the lower ones have been cleared. -/
def highestBit (leaves : Nat) : Nat :=
  if leaves &&& (leaves - 1) = 0 then leaves else highestBit (leaves &&& (leaves - 1))
termination_by leaves
decreasing_by
  rename_i h
  have hle : leaves &&& (leaves - 1) ≤ leaves - 1 := Nat.and_le_right
  have hpos : leaves ≠ 0 := fun hzero => h (by rw [hzero, Nat.zero_and])
  omega

/-- The loop of `vine_to_tree` over the length of the main vine, with the height of the
tree that it makes. -/
def compressVine (vine height : Nat) (tree : SearchTree α) :
    Except Abort (Nat × SearchTree α) :=
  if 1 < vine then do
    let tree ← compress (vine / 2) tree
    compressVine (vine / 2) (height + 1) tree
  else return (height, tree)
termination_by vine

def vineToTree (count : Nat) (tree : SearchTree α) : Except Abort (SearchTree α) := do
  let leaves := count + 1 - highestBit (count + 1)
  let tree ← compress leaves tree
  let (height, tree) ← compressVine (count - leaves) (1 + (decide (0 < leaves)).toNat) tree
  if bstMaxHeight < height then throw .treeTooBig
  return tree

def bstBalance (table : BstTable α) : Except Abort (BstTable α) := do
  let root ← vineToTree table.count (treeToVine table.root)
  return { table with root := root, generation := table.generation + 1 }

section Vines

/-- A main vine of `n` nodes, with trees of `h` levels at most to the right of them and
below the last one. -/
def Spine (h : Nat) : Nat → SearchTree α → Prop
  | 0, tree => tree.levels ≤ h
  | _ + 1, .leaf => False
  | n + 1, .node left _ right => right.levels ≤ h ∧ Spine h n left

theorem Spine.succ_height {h n : Nat} {tree : SearchTree α} (ht : Spine h n tree) :
    Spine (h + 1) n tree := by
  induction n generalizing tree with
  | zero => exact Nat.le_succ_of_le ht
  | succ n ih =>
      cases tree with
      | leaf => exact ht
      | node left item right => exact ⟨Nat.le_succ_of_le ht.1, ih ht.2⟩

/-- The last node of a vine is the top of one more level. -/
theorem Spine.levels_le {h : Nat} {tree : SearchTree α} (ht : Spine h 1 tree) :
    tree.levels ≤ h + 1 := by
  cases tree with
  | leaf => exact ht.elim
  | node left item right => exact Nat.succ_le_succ (max_le ht.2 ht.1)

theorem toList_treeToVine (tree : SearchTree α) : (treeToVine tree).toList = tree.toList := by
  fun_induction treeToVine tree with
  | case1 => rfl
  | case2 left item ih => rw [toList_node, ih, toList_node]
  | case3 left item left' item' right' ih => simp [ih]

theorem spine_treeToVine (tree : SearchTree α) : Spine 0 tree.size (treeToVine tree) := by
  fun_induction treeToVine tree with
  | case1 => exact le_rfl
  | case2 left item ih => exact ⟨le_rfl, ih⟩
  | case3 left item left' item' right' ih =>
      have hsize : (SearchTree.node left item (.node left' item' right')).size =
          (SearchTree.node (.node left item left') item' right').size := by
        simp only [size_node]
        omega
      rw [hsize]
      exact ih

/-- Folding `count` pairs of nodes, with what that makes of the rest of the vine. -/
theorem compress_spine {h c d : Nat}
    (hrest : ∀ tree : SearchTree α, Spine h c tree → Spine (h + 1) d tree)
    {count : Nat} {tree : SearchTree α} (ht : Spine h (2 * count + c) tree) :
    ∃ tree', compress count tree = .ok tree' ∧ tree'.toList = tree.toList ∧
      Spine (h + 1) (count + d) tree' := by
  induction count generalizing tree with
  | zero =>
      rw [Nat.mul_zero, Nat.zero_add] at ht
      exact ⟨tree, rfl, rfl, (Nat.zero_add d).symm ▸ hrest tree ht⟩
  | succ count ih =>
      have hlength : 2 * (count + 1) + c = 2 * count + c + 1 + 1 := by omega
      rw [hlength] at ht
      cases tree with
      | leaf => exact ht.elim
      | node below red redRight =>
          obtain ⟨hred, hbelow⟩ := ht
          cases below with
          | leaf => exact hbelow.elim
          | node rest black blackRight =>
              obtain ⟨hblack, hvine⟩ := hbelow
              obtain ⟨rest', hcompress, hlist, hspine⟩ := ih hvine
              refine ⟨.node rest' black (.node blackRight red redRight), ?_, ?_, ?_⟩
              · rw [compress, hcompress]
                rfl
              · simp [hlist]
              · rw [Nat.succ_add]
                exact ⟨Nat.succ_le_succ (max_le hblack hred), hspine⟩

theorem highestBit_eq {k n : Nat} (hle : 2 ^ k ≤ n) (hlt : n < 2 ^ (k + 1)) :
    highestBit n = 2 ^ k := by
  induction n using Nat.strong_induction_on with
  | _ n ih =>
      rcases eq_or_lt_of_le hle with rfl | hgt
      · rw [highestBit, if_pos]
        rw [Nat.and_two_pow_sub_one_eq_mod, Nat.mod_self]
      · have hbit : (n &&& (n - 1)).testBit k = true := by
          rw [Nat.testBit_and, Nat.testBit_of_two_pow_le_and_two_pow_add_one_gt hle hlt,
            Nat.testBit_of_two_pow_le_and_two_pow_add_one_gt (by omega) (by omega)]
          rfl
        have hge : 2 ^ k ≤ n &&& (n - 1) := Nat.ge_two_pow_of_testBit hbit
        have hless : n &&& (n - 1) ≤ n - 1 := Nat.and_le_right
        have hpos := Nat.two_pow_pos k
        rw [highestBit, if_neg (by omega)]
        exact ih _ (by omega) hge (by omega)

/-- A vine of one node less than a power of two is folded up to a tree. -/
theorem compressVine_spine {h j : Nat} {tree : SearchTree α}
    (ht : Spine h (2 ^ (j + 1) - 1) tree) :
    ∃ tree', compressVine (2 ^ (j + 1) - 1) (h + 1) tree = .ok (h + 1 + j, tree') ∧
      tree'.toList = tree.toList ∧ tree'.levels ≤ h + 1 + j := by
  induction j generalizing h tree with
  | zero =>
      rw [compressVine, if_neg (by simp)]
      exact ⟨tree, rfl, rfl, ht.levels_le⟩
  | succ j ih =>
      have hpos := Nat.two_pow_pos j
      have hsucc : 2 ^ (j + 1 + 1) - 1 = 2 * (2 ^ (j + 1) - 1) + 1 := by
        rw [Nat.pow_succ, Nat.pow_succ]
        omega
      have hhalf : (2 * (2 ^ (j + 1) - 1) + 1) / 2 = 2 ^ (j + 1) - 1 := by omega
      have hmany : 1 < 2 * (2 ^ (j + 1) - 1) + 1 := by
        rw [Nat.pow_succ]
        omega
      rw [hsucc] at ht ⊢
      obtain ⟨folded, hcompress, hlist, hspine⟩ :=
        compress_spine (d := 0) (fun _ hlast => hlast.levels_le) ht
      obtain ⟨tree', hrun, hlist', hlevels⟩ := ih hspine
      rw [compressVine, if_pos hmany, hhalf, hcompress]
      refine ⟨tree', ?_, hlist'.trans hlist, by omega⟩
      rw [show h + 1 + (j + 1) = h + 1 + 1 + j by omega]
      exact hrun

end Vines

section Balancing

variable {κ : Type v} [LinearOrder κ] {key : α → κ} {table : BstTable α}

/-- What the operations keep true of a table. -/
structure Intact (key : α → κ) (table : BstTable α) : Prop where
  ordered : table.root.Ordered key
  counted : table.count = table.root.size

theorem Intact.probe (h : Intact key table) (item : α) : Intact key (table.probe key item) := by
  refine ⟨h.ordered.probe item, ?_⟩
  rw [BstTable.probe, size_probe, ← h.counted]

/-- In whatever order the items are put in. -/
theorem intact_probes (items : List α) :
    Intact key (items.foldl (fun table item => table.probe key item) {}) := by
  induction items using List.reverseRecOn with
  | nil => exact ⟨ordered_leaf, rfl⟩
  | append_singleton items item ih =>
      rw [List.foldl_append]
      exact ih.probe item

theorem exists_highestBit {count : Nat} (hpos : 0 < count) :
    ∃ k leaves, count + 1 = 2 ^ (k + 1) + leaves ∧ leaves < 2 ^ (k + 1) := by
  have hle : 2 ^ (count + 1).log2 ≤ count + 1 := Nat.log2_self_le (Nat.succ_ne_zero count)
  have hlt : count + 1 < 2 ^ ((count + 1).log2 + 1) := Nat.lt_log2_self
  cases hlog : (count + 1).log2 with
  | zero =>
      rw [hlog] at hlt
      omega
  | succ k =>
      rw [hlog] at hle hlt
      rw [Nat.pow_succ 2 (k + 1)] at hlt
      exact ⟨k, count + 1 - 2 ^ (k + 1), by omega, by omega⟩

/-- The leaves of the last level are folded in first. -/
theorem compress_leaves {count k leaves : Nat} (hcount : count + 1 = 2 ^ (k + 1) + leaves)
    (hleaves : leaves < 2 ^ (k + 1)) {tree : SearchTree α} (ht : Spine 0 count tree) :
    ∃ tree', compress leaves tree = .ok tree' ∧ tree'.toList = tree.toList ∧
      Spine (decide (0 < leaves)).toNat (2 ^ (k + 1) - 1) tree' := by
  cases leaves with
  | zero =>
      obtain rfl : count = 2 ^ (k + 1) - 1 := by omega
      exact ⟨tree, rfl, rfl, ht⟩
  | succ leaves =>
      have hpairs : count = 2 * (leaves + 1) + (2 ^ (k + 1) - 1 - (leaves + 1)) := by omega
      rw [hpairs] at ht
      obtain ⟨tree', hcompress, hlist, hspine⟩ := compress_spine (fun _ h => h.succ_height) ht
      refine ⟨tree', hcompress, hlist, ?_⟩
      rw [decide_eq_true (Nat.succ_pos leaves)]
      have hvine : leaves + 1 + (2 ^ (k + 1) - 1 - (leaves + 1)) = 2 ^ (k + 1) - 1 := by omega
      rw [hvine] at hspine
      exact hspine

/-- The height that `vine_to_tree` counts is small for all but the largest tables. -/
theorem height_le_iff {count k leaves : Nat} (hcount : count + 1 = 2 ^ (k + 1) + leaves)
    (hleaves : leaves < 2 ^ (k + 1)) (n : Nat) :
    (decide (0 < leaves)).toNat + 1 + k ≤ n ↔ count < 2 ^ n := by
  have hlast : (decide (0 < leaves)).toNat = 0 ∧ leaves = 0 ∨
      (decide (0 < leaves)).toNat = 1 ∧ 0 < leaves := by
    rcases Nat.eq_zero_or_pos leaves with rfl | hpos
    · exact Or.inl ⟨rfl, rfl⟩
    · exact Or.inr ⟨by rw [decide_eq_true hpos]; rfl, hpos⟩
  rcases lt_trichotomy (k + 1) n with hlt | rfl | hgt
  · have hpow : 2 ^ (k + 1 + 1) ≤ 2 ^ n := Nat.pow_le_pow_right Nat.two_pos hlt
    rw [Nat.pow_succ] at hpow
    omega
  · omega
  · have hpow : 2 ^ n ≤ 2 ^ k := Nat.pow_le_pow_right Nat.two_pos (Nat.lt_succ_iff.mp hgt)
    have hpos := Nat.two_pow_pos k
    rw [Nat.pow_succ] at hcount
    omega

/-- A vine is folded up to a tree with as few levels as it needs, and the program ends
where these are too many. -/
theorem vineToTree_spine {count : Nat} (hpos : 0 < count) {tree : SearchTree α}
    (ht : Spine 0 count tree) :
    if count < 2 ^ bstMaxHeight then
      ∃ tree', vineToTree count tree = .ok tree' ∧ tree'.toList = tree.toList ∧
        tree'.levels ≤ bstMaxHeight
    else vineToTree count tree = .error .treeTooBig := by
  obtain ⟨k, leaves, hcount, hleaves⟩ := exists_highestBit hpos
  obtain ⟨folded, hfolded, hlist, hspine⟩ := compress_leaves hcount hleaves ht
  obtain ⟨tree', hrun, hlist', hlevels⟩ := compressVine_spine hspine
  have hbit : highestBit (count + 1) = 2 ^ (k + 1) := by
    refine highestBit_eq (by omega) ?_
    rw [Nat.pow_succ]
    omega
  have hrest : count + 1 - 2 ^ (k + 1) = leaves := by omega
  have hvine : count - leaves = 2 ^ (k + 1) - 1 := by omega
  have hheight := height_le_iff hcount hleaves bstMaxHeight
  have hcall : vineToTree count tree =
      if bstMaxHeight < (decide (0 < leaves)).toNat + 1 + k then .error .treeTooBig
      else .ok tree' := by
    rw [vineToTree, hbit, hrest, hfolded]
    dsimp only [bind, Except.bind]
    rw [hvine, Nat.add_comm 1, hrun]
    dsimp only
    split_ifs <;> rfl
  rw [hcall]
  split_ifs with hsmall hhigh hhigh
  · exact absurd (hheight.mpr hsmall) (Nat.not_le.mpr hhigh)
  · exact ⟨tree', rfl, hlist'.trans hlist, hlevels.trans (Nat.not_lt.mp hhigh)⟩
  · rfl
  · exact absurd (hheight.mp (Nat.not_lt.mp hhigh)) hsmall

theorem Intact.of_toList (h : Intact key table) {table' : BstTable α}
    (hlist : table'.root.toList = table.root.toList) (hcount : table'.count = table.count) :
    Intact key table' := by
  refine ⟨?_, ?_⟩
  · rw [Ordered, hlist]
    exact h.ordered
  · rw [hcount, h.counted, ← length_toList, ← length_toList, hlist]

/-- Balancing keeps the items and their order and makes room on the stack of a traverser. -/
theorem bstBalance_spec (h : Intact key table) (hpos : 0 < table.root.size)
    (hsmall : table.root.size < 2 ^ bstMaxHeight) :
    ∃ table', bstBalance table = .ok table' ∧ Intact key table' ∧
      table'.root.toList = table.root.toList ∧ table'.root.levels ≤ bstMaxHeight ∧
      table'.generation = table.generation + 1 := by
  have hspine := vineToTree_spine hpos (spine_treeToVine table.root)
  rw [if_pos hsmall] at hspine
  obtain ⟨root, hrun, hlist, hlevels⟩ := hspine
  have hitems : root.toList = table.root.toList := hlist.trans (toList_treeToVine _)
  refine ⟨{ table with root := root, generation := table.generation + 1 }, ?_,
    h.of_toList hitems rfl, hitems, hlevels, rfl⟩
  rw [bstBalance, h.counted, hrun]
  rfl

/-- From 2 ^ 32 nodes on there is no balancing. -/
theorem bstBalance_tooBig (h : Intact key table)
    (hbig : 2 ^ bstMaxHeight ≤ table.root.size) : bstBalance table = .error .treeTooBig := by
  have hpos : 0 < table.root.size := (Nat.two_pow_pos bstMaxHeight).trans_le hbig
  have hspine := vineToTree_spine hpos (spine_treeToVine table.root)
  rw [if_neg (Nat.not_lt.mpr hbig)] at hspine
  rw [bstBalance, h.counted, hspine]
  rfl

end Balancing

end FastDCS.BstTables
