import Mathlib.Logic.Function.Basic
import FastDCS.BstTables
import FastDCS.TreeEdits

/-!
`config_bst.cc`: the calls that put items into a table, replace them and delete them, in any order,
against a map from the keys to the items. An item is the pointer that the caller has for it.
-/

namespace FastDCS.BstEdits

open FastDCS.SearchTrees
open FastDCS.SearchTrees.SearchTree
open FastDCS.BstTables

universe u v

variable {α : Type u} {κ : Type v} [LinearOrder κ] (key : α → κ)

/-- `bst_probe`, where there is memory for a node or not. What it returns points to the item. -/
def bstProbe (memory : Bool) (item : α) (table : BstTable α) : Option α × BstTable α :=
  match table.root.find key (key item) with
  | some found => (some found, table)
  | none => if memory then (some item, table.probe key item) else (none, table)

def bstInsert [DecidableEq α] (memory : Bool) (item : α) (table : BstTable α) :
    Option α × BstTable α :=
  let (p, table) := bstProbe key memory item table
  (if p = none ∨ p = some item then none else p, table)

def bstReplace [DecidableEq α] (memory : Bool) (item : α) (table : BstTable α) :
    Option α × BstTable α :=
  let (p, table) := bstProbe key memory item table
  if p = none ∨ p = some item then (none, table)
  else (p, { table with root := table.root.put key item })

def bstDelete (item : α) (table : BstTable α) : Option α × BstTable α :=
  match table.root.delete key (key item) with
  | none => (none, table)
  | some (found, root) =>
      (some found,
        { root := root, count := table.count - 1, generation := table.generation + 1 })

/-- A call for an item, of which `bst_find` and `bst_delete` only compare the key. -/
inductive Call (α : Type u) where
  | find (item : α)
  | probe (memory : Bool) (item : α)
  | insert (memory : Bool) (item : α)
  | replace (memory : Bool) (item : α)
  | delete (item : α)
  | balance

def call [DecidableEq α] (table : BstTable α) : Call α → Except Abort (Option α × BstTable α)
  | .find item => return (table.root.find key (key item), table)
  | .probe memory item => return bstProbe key memory item table
  | .insert memory item => return bstInsert key memory item table
  | .replace memory item => return bstReplace key memory item table
  | .delete item => return bstDelete key item table
  | .balance => do return (none, ← bstBalance table)

/-- What the calls return, and what they leave. -/
def calls [DecidableEq α] :
    List (Call α) → BstTable α → Except Abort (List (Option α) × BstTable α)
  | [], table => return ([], table)
  | c :: rest, table => do
      let (answer, table) ← call key table c
      let (answers, table) ← calls rest table
      return (answer :: answers, table)

/-- A new item is put in where there is memory for it. -/
def added (memory : Bool) (item : α) (items : κ → Option α) : κ → Option α :=
  if memory then Function.update items (key item) (some item) else items

/-- What a call is for, on the map from the keys to the items: what it returns and what it
changes. -/
def Call.meaning [DecidableEq α] (items : κ → Option α) : Call α → Option α × (κ → Option α)
  | .find item => (items (key item), items)
  | .probe memory item =>
      match items (key item) with
      | some found => (some found, items)
      | none => (if memory then some item else none, added key memory item items)
  | .insert memory item =>
      match items (key item) with
      | some found => (if found = item then none else some found, items)
      | none => (none, added key memory item items)
  | .replace memory item =>
      match items (key item) with
      | some found =>
          (if found = item then none else some found,
            Function.update items (key item) (some item))
      | none => (none, added key memory item items)
  | .delete item => (items (key item), Function.update items (key item) none)
  | .balance => (none, items)

def meaning [DecidableEq α] : List (Call α) → (κ → Option α) → List (Option α) × (κ → Option α)
  | [], items => ([], items)
  | c :: rest, items =>
      ((c.meaning key items).1 :: (meaning rest (c.meaning key items).2).1,
        (meaning rest (c.meaning key items).2).2)

/-- The table holds exactly these items, in order and counted. -/
structure Represents (table : BstTable α) (items : κ → Option α) : Prop where
  intact : Intact key table
  find : ∀ k, table.root.find key k = items k

section Contents

variable {key} {table : BstTable α} {items : κ → Option α}

theorem represents_create : Represents key ({} : BstTable α) fun _ => none :=
  ⟨⟨ordered_leaf, rfl⟩, fun _ => rfl⟩

/-- The items in the order of their keys. -/
theorem Represents.mem_toList_iff (h : Represents key table items) {item : α} :
    item ∈ table.root.toList ↔ items (key item) = some item := by
  rw [← h.find, h.intact.ordered.find_eq_some_iff, and_iff_left rfl]

theorem Represents.probe (h : Represents key table items) {item : α}
    (hitem : items (key item) = none) :
    Represents key (table.probe key item) (Function.update items (key item) (some item)) := by
  refine ⟨h.intact.probe item, fun k => ?_⟩
  show (table.root.probe key item).find key k = _
  rw [find_probe, h.find, Function.update_apply]
  split_ifs with hk
  · rw [hk, hitem, Option.getD_none]
  · rfl

theorem Represents.put (h : Represents key table items) {item found : α}
    (hitem : items (key item) = some found) :
    Represents key { table with root := table.root.put key item }
      (Function.update items (key item) (some item)) := by
  refine ⟨⟨h.intact.ordered.put item, ?_⟩, fun k => ?_⟩
  · show table.count = (table.root.put key item).size
    rw [size_put, h.intact.counted]
  · show (table.root.put key item).find key k = _
    rw [Function.update_apply]
    split_ifs with hk
    · rw [hk, find_put_self, h.find, hitem, Option.map_some]
    · rw [find_put_of_ne hk, h.find]

theorem intact_delete (h : Intact key table) {k : κ} {found : α} {root : SearchTree α}
    (hdelete : table.root.delete key k = some (found, root)) :
    Intact key
      { root := root, count := table.count - 1, generation := table.generation + 1 } := by
  refine ⟨h.ordered.delete hdelete, ?_⟩
  show table.count - 1 = root.size
  rw [h.counted, size_delete hdelete, Nat.add_sub_cancel]

theorem Represents.delete (h : Represents key table items) {item found : α} {root : SearchTree α}
    (hdelete : table.root.delete key (key item) = some (found, root)) :
    Represents key
      { root := root, count := table.count - 1, generation := table.generation + 1 }
      (Function.update items (key item) none) := by
  refine ⟨intact_delete h.intact hdelete, fun k => ?_⟩
  show root.find key k = _
  rw [h.intact.ordered.find_delete hdelete, Function.update_apply, h.find]

theorem Represents.of_toList (h : Represents key table items) {table' : BstTable α}
    (hintact : Intact key table') (hlist : table'.root.toList = table.root.toList) :
    Represents key table' items :=
  ⟨hintact, fun k => by rw [h.intact.ordered.find_congr hlist, h.find]⟩

/-- A call returns what it means, and leaves a table that stands for what it means, with one more
item at most. -/
structure Meets (key : α → κ) (table : BstTable α) (returned : Option α × BstTable α)
    (meant : Option α × (κ → Option α)) : Prop where
  answer : returned.1 = meant.1
  represents : Represents key returned.2 meant.2
  size_le : returned.2.root.size ≤ table.root.size + 1

theorem Represents.meets (h : Represents key table items) (answer : Option α) :
    Meets key table (answer, table) (answer, items) :=
  ⟨rfl, h, Nat.le_succ _⟩

/-- An item is put in, or there is no memory for it. -/
theorem Represents.added (h : Represents key table items) (memory : Bool) {item : α}
    (hitem : items (key item) = none) (answer : Option α) :
    Meets key table (answer, if memory then table.probe key item else table)
      (answer, added key memory item items) := by
  cases memory with
  | false => exact h.meets answer
  | true =>
      refine ⟨rfl, h.probe hitem, ?_⟩
      show (table.root.probe key item).size ≤ _
      rw [size_probe]
      split_ifs
      · exact Nat.le_succ _
      · exact le_rfl

theorem bstProbe_of_some (h : Represents key table items) {item found : α}
    (hitem : items (key item) = some found) (memory : Bool) :
    bstProbe key memory item table = (some found, table) := by
  rw [bstProbe, h.find, hitem]

theorem bstProbe_of_none (h : Represents key table items) {item : α}
    (hitem : items (key item) = none) (memory : Bool) :
    bstProbe key memory item table =
      (if memory then some item else none,
        if memory then table.probe key item else table) := by
  rw [bstProbe, h.find, hitem]
  cases memory <;> rfl

/-- An empty table is balanced. -/
theorem bstBalance_empty (h : Intact key table) (hempty : table.root.size = 0) :
    bstBalance table = .ok { table with generation := table.generation + 1 } := by
  obtain ⟨root, count, generation⟩ := table
  cases root with
  | leaf =>
      obtain rfl : count = 0 := h.counted
      have hbit : highestBit 1 = 1 := by
        rw [highestBit]
        rfl
      have hvine : compressVine 0 1 (.leaf : SearchTree α) = .ok (1, .leaf) := by
        rw [compressVine]
        rfl
      rw [bstBalance, vineToTree, treeToVine, Nat.zero_add, hbit]
      show (compressVine 0 1 (.leaf : SearchTree α) >>= _) >>= _ = _
      rw [hvine]
      rfl
  | node left item right => exact absurd hempty (Nat.succ_ne_zero _)

end Contents

section Calls

variable [DecidableEq α] {key} {table : BstTable α} {items : κ → Option α}

theorem bstProbe_spec (h : Represents key table items) (memory : Bool) (item : α) :
    Meets key table (bstProbe key memory item table)
      ((Call.probe memory item).meaning key items) := by
  cases hitem : items (key item) with
  | some found =>
      rw [bstProbe_of_some h hitem]
      simp only [Call.meaning, hitem]
      exact h.meets _
  | none =>
      rw [bstProbe_of_none h hitem]
      simp only [Call.meaning, hitem]
      exact h.added memory hitem _

theorem bstInsert_spec (h : Represents key table items) (memory : Bool) (item : α) :
    Meets key table (bstInsert key memory item table)
      ((Call.insert memory item).meaning key items) := by
  cases hitem : items (key item) with
  | some found =>
      rw [bstInsert, bstProbe_of_some h hitem]
      simp only [Call.meaning, hitem, reduceCtorEq, false_or, Option.some.injEq]
      exact h.meets _
  | none =>
      have hnone (p : Option α) (hp : p = if memory then some item else none) :
          (if p = none ∨ p = some item then none else p) = none := by
        cases memory <;> simp [hp]
      rw [bstInsert, bstProbe_of_none h hitem]
      simp only [Call.meaning, hitem, hnone _ rfl]
      exact h.added memory hitem none

theorem bstReplace_spec (h : Represents key table items) (memory : Bool) (item : α) :
    Meets key table (bstReplace key memory item table)
      ((Call.replace memory item).meaning key items) := by
  cases hitem : items (key item) with
  | some found =>
      rw [bstReplace, bstProbe_of_some h hitem]
      simp only [Call.meaning, hitem, reduceCtorEq, false_or, Option.some.injEq]
      split_ifs with hsame
      · have hupdate : Function.update items (key item) (some item) = items := by
          rw [← hsame, ← hitem, hsame, Function.update_eq_self]
        rw [hupdate]
        exact h.meets none
      · refine ⟨rfl, h.put hitem, ?_⟩
        show (table.root.put key item).size ≤ _
        rw [size_put]
        exact Nat.le_succ _
  | none =>
      have hnone : (if memory then some item else none) = none ∨
          (if memory then some item else none) = some item := by
        cases memory <;> simp
      rw [bstReplace, bstProbe_of_none h hitem]
      simp only [Call.meaning, hitem, if_pos hnone]
      exact h.added memory hitem none

theorem bstDelete_spec (h : Represents key table items) (item : α) :
    Meets key table (bstDelete key item table) ((Call.delete item).meaning key items) := by
  unfold bstDelete
  cases hdelete : table.root.delete key (key item) with
  | none =>
      have hitem : items (key item) = none := by
        rw [← h.find]
        exact delete_eq_none_iff.mp hdelete
      have hupdate : Function.update items (key item) none = items := by
        rw [← hitem, Function.update_eq_self]
      simp only [Call.meaning, hitem, hupdate]
      exact h.meets none
  | some deleted =>
      obtain ⟨found, root⟩ := deleted
      have hitem : items (key item) = some found := by
        rw [← h.find]
        exact (delete_spec hdelete).1
      refine ⟨hitem.symm, h.delete hdelete, ?_⟩
      show root.size ≤ table.root.size + 1
      rw [size_delete hdelete]
      omega

theorem bstBalance_meets (h : Represents key table items)
    (hsmall : table.root.size < 2 ^ bstMaxHeight) :
    ∃ table', bstBalance table = .ok table' ∧
      Meets key table (none, table') ((Call.balance : Call α).meaning key items) := by
  rcases Nat.eq_zero_or_pos table.root.size with hempty | hpos
  · refine ⟨_, bstBalance_empty h.intact hempty, rfl, ?_, Nat.le_succ _⟩
    exact h.of_toList (h.intact.of_toList rfl rfl) rfl
  · obtain ⟨table', hrun, hintact, hlist, -, -⟩ := bstBalance_spec h.intact hpos hsmall
    refine ⟨table', hrun, rfl, h.of_toList hintact hlist, ?_⟩
    show table'.root.size ≤ _
    rw [← length_toList, hlist, length_toList]
    exact Nat.le_succ _

/-- One call. -/
theorem call_spec (h : Represents key table items) (c : Call α)
    (hsmall : table.root.size < 2 ^ bstMaxHeight) :
    ∃ returned, call key table c = .ok returned ∧
      Meets key table returned (c.meaning key items) := by
  cases c with
  | find item =>
      refine ⟨_, rfl, ?_⟩
      rw [h.find]
      exact h.meets _
  | probe memory item => exact ⟨_, rfl, bstProbe_spec h memory item⟩
  | insert memory item => exact ⟨_, rfl, bstInsert_spec h memory item⟩
  | replace memory item => exact ⟨_, rfl, bstReplace_spec h memory item⟩
  | delete item => exact ⟨_, rfl, bstDelete_spec h item⟩
  | balance =>
      obtain ⟨table', hrun, hmeets⟩ := bstBalance_meets h hsmall
      refine ⟨(none, table'), ?_, hmeets⟩
      rw [call, hrun]
      rfl

/-- Any calls, as long as there is room for their items. -/
theorem calls_spec (h : Represents key table items) (list : List (Call α))
    (hroom : table.root.size + list.length ≤ 2 ^ bstMaxHeight) :
    ∃ table', calls key list table = .ok ((meaning key list items).1, table') ∧
      Represents key table' (meaning key list items).2 := by
  induction list generalizing table items with
  | nil => exact ⟨table, rfl, h⟩
  | cons c rest ih =>
      rw [List.length_cons] at hroom
      obtain ⟨⟨answer, next⟩, hcall, hmeets⟩ := call_spec h c (by omega)
      have hnext : next.root.size + rest.length ≤ 2 ^ bstMaxHeight := by
        have hle : next.root.size ≤ table.root.size + 1 := hmeets.size_le
        omega
      obtain ⟨table', hrest, hrepresents⟩ := ih hmeets.represents hnext
      refine ⟨table', ?_, hrepresents⟩
      have hanswer : answer = (c.meaning key items).1 := hmeets.answer
      rw [calls, hcall, meaning, ← hanswer]
      show (calls key rest next >>= _) = _
      rw [hrest]
      rfl

end Calls

/-- From `bst_create` on, a table is the map that the calls on it mean, listed in order. -/
theorem table_throughout [DecidableEq α] (key : α → κ) (list : List (Call α))
    (hfew : list.length ≤ 2 ^ bstMaxHeight) :
    ∃ table, calls key list {} = .ok ((meaning key list fun _ => none).1, table) ∧
      Represents key table (meaning key list fun _ => none).2 ∧
        ∀ item, item ∈ table.root.toList ↔
          (meaning key list fun _ => none).2 (key item) = some item := by
  have hroom : ({} : BstTable α).root.size + list.length ≤ 2 ^ bstMaxHeight := by
    rw [size_leaf, Nat.zero_add]
    exact hfew
  have hcreate : Represents key ({} : BstTable α) fun _ => none := represents_create
  obtain ⟨table, hrun, hrepresents⟩ := calls_spec hcreate list hroom
  exact ⟨table, hrun, hrepresents, fun item => hrepresents.mem_toList_iff⟩

/-- Calls for items that are made up of their key and a second number. -/
def fewCalls : List (Call (Nat × Nat)) :=
  [.insert true (2, 0), .insert false (3, 0), .insert true (1, 0), .insert true (2, 5),
    .replace true (2, 5), .balance, .delete (2, 9), .find (1, 7)]

theorem table_throughout_few :
    ∃ table, calls Prod.fst fewCalls {} =
        .ok ([none, none, none, some (2, 0), some (2, 0), none, some (2, 5), some (1, 0)],
          table) ∧
      Represents Prod.fst table (meaning Prod.fst fewCalls fun _ => none).2 ∧
        ∀ item, item ∈ table.root.toList ↔
          (meaning Prod.fst fewCalls fun _ => none).2 item.1 = some item :=
  table_throughout Prod.fst fewCalls (by decide)

end FastDCS.BstEdits
