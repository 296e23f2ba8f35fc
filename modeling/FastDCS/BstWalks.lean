import FastDCS.BstEdits
import FastDCS.BstTraversers
import FastDCS.Runs
import FastDCS.TreeDepths

/-!
`config_bst.cc`: a traverser that walks through a table while the table is changed.
-/

namespace FastDCS.BstWalks

open FastDCS.SearchTrees
open FastDCS.SearchTrees.SearchTree
open FastDCS.BstTables
open FastDCS.BstTraversers
open FastDCS.BstEdits
open FastDCS.Runs

universe u v

variable {α : Type u} {κ : Type v} [LinearOrder κ] (key : α → κ)

/-- A table and a traverser of it. -/
structure State (α : Type u) where
  table : BstTable α := {}
  trav : Traverser α := {}

inductive Action (α : Type u) where
  | edit (c : Call α)
  | init
  | first
  | next

def step [DecidableEq α] (calls : Nat) (s : State α) : Action α → Option (State α)
  | .edit c =>
      match call key s.table c with
      | .ok (_, table) => some { s with table := table }
      | .error _ => none
  | .init => some { s with trav := { generation := s.table.generation } }
  | .first =>
      match bstTFirst calls s.table with
      | .ok (_, table, trav) => some { table := table, trav := trav }
      | .error _ => none
  | .next =>
      match bstTNext key calls s.table s.trav with
      | .ok (_, table, trav) => some { table := table, trav := trav }
      | .error _ => none

/-- The item of the traverser is not deleted and nothing is replaced. (The traverser points to a
node, whose item is another one behind a replacement.) -/
def Spares (s : State α) : Action α → Prop
  | .edit (.delete item) => s.trav.node.map key ≠ some (key item)
  | .edit (.replace _ item) =>
      s.table.root.find key (key item) = none ∨ s.table.root.find key (key item) = some item
  | _ => True

instance [DecidableEq α] (s : State α) (a : Action α) : Decidable (Spares key s a) := by
  cases a with
  | edit c => cases c <;> unfold Spares <;> infer_instance
  | _ => exact isTrue trivial

/-- What is to come behind a node, or at all where there is none. -/
def upcoming (items : List α) : Option α → List α
  | none => items
  | some x => items.filter fun item => key x < key item

/-- Where the traverser is after so many actions at most: the item of its node is in the table and
not too deep, and the stack is the way to it, where the table has not been changed since. -/
structure Tracking (n : Nat) (s : State α) : Prop where
  intact : Intact key s.table
  size_le : s.table.root.size ≤ n
  bounded : s.trav.stack.length ≤ bstMaxHeight
  mem : ∀ x, s.trav.node = some x → x ∈ s.table.root.toList
  shallow : ∀ x, s.trav.node = some x → s.table.root.depth key (key x) ≤ bstMaxHeight
  changes : ∃ k ≤ n, s.table.generation = s.trav.generation + UInt64.ofNat k ∧
    (k = 0 → ∀ x, s.trav.node = some x → s.trav.stack = s.table.root.path key (key x) [])

variable {key} {s s' : State α} {n : Nat}

theorem tracking_start : Tracking key 0 ({} : State α) where
  intact := ⟨ordered_leaf, rfl⟩
  size_le := le_rfl
  bounded := Nat.zero_le _
  mem := nofun
  shallow := nofun
  changes := ⟨0, le_rfl, rfl, fun _ => nofun⟩

theorem Tracking.succ (h : Tracking key n s) : Tracking key (n + 1) s := by
  obtain ⟨k, hk, hchanges⟩ := h.changes
  exact
    { h with
      size_le := Nat.le_succ_of_le h.size_le
      changes := ⟨k, Nat.le_succ_of_le hk, hchanges⟩ }

section Edits

variable {table table' : BstTable α}

theorem bstProbe_table (memory : Bool) (item : α) :
    (bstProbe key memory item table).2 = table ∨
      (bstProbe key memory item table).2 = table.probe key item := by
  rw [bstProbe]
  cases table.root.find key (key item) with
  | some found => exact Or.inl rfl
  | none =>
      cases memory with
      | true => exact Or.inr rfl
      | false => exact Or.inl rfl

theorem bstReplace_table [DecidableEq α] {memory : Bool} {item : α}
    (hspares : table.root.find key (key item) = none ∨
      table.root.find key (key item) = some item) :
    (bstReplace key memory item table).2 = (bstProbe key memory item table).2 := by
  have hreturned : (bstProbe key memory item table).1 = none ∨
      (bstProbe key memory item table).1 = some item := by
    rw [bstProbe]
    rcases hspares with hnone | hsome
    · rw [hnone]
      cases memory with
      | true => exact Or.inr rfl
      | false => exact Or.inl rfl
    · rw [hsome]
      exact Or.inr rfl
  unfold bstReplace
  dsimp only
  rw [if_pos hreturned]

/-- What a call that replaces nothing can do to a table. -/
theorem table_of_call [DecidableEq α] {answer : Option α} {c : Call α}
    (hspares : Spares key s (.edit c)) (h : call key s.table c = .ok (answer, table')) :
    table' = s.table ∨ (∃ item, table' = s.table.probe key item) ∨
      (∃ item found root, s.trav.node.map key ≠ some (key item) ∧
        s.table.root.delete key (key item) = some (found, root) ∧
        table' =
          { root := root, count := s.table.count - 1, generation := s.table.generation + 1 }) ∨
      bstBalance s.table = .ok table' := by
  cases c with
  | find item =>
      cases h
      exact Or.inl rfl
  | probe memory item =>
      have htable : bstProbe key memory item s.table = (answer, table') := Except.ok.inj h
      rw [← show (bstProbe key memory item s.table).2 = table' from congrArg Prod.snd htable]
      exact (bstProbe_table memory item).imp id fun h => Or.inl ⟨item, h⟩
  | insert memory item =>
      have htable : bstInsert key memory item s.table = (answer, table') := Except.ok.inj h
      rw [← show (bstProbe key memory item s.table).2 = table' from congrArg Prod.snd htable]
      exact (bstProbe_table memory item).imp id fun h => Or.inl ⟨item, h⟩
  | replace memory item =>
      have htable : bstReplace key memory item s.table = (answer, table') := Except.ok.inj h
      rw [← show (bstReplace key memory item s.table).2 = table' from congrArg Prod.snd htable,
        bstReplace_table hspares]
      exact (bstProbe_table memory item).imp id fun h => Or.inl ⟨item, h⟩
  | delete item =>
      have htable : bstDelete key item s.table = (answer, table') := Except.ok.inj h
      rw [bstDelete] at htable
      cases hdelete : s.table.root.delete key (key item) with
      | none =>
          rw [hdelete] at htable
          exact Or.inl (congrArg Prod.snd htable).symm
      | some deleted =>
          rw [hdelete] at htable
          exact Or.inr (Or.inr (Or.inl ⟨item, deleted.1, deleted.2, hspares, hdelete,
            (congrArg Prod.snd htable).symm⟩))
  | balance =>
      rw [call] at h
      cases hrun : bstBalance s.table with
      | error abort =>
          rw [hrun] at h
          cases h
      | ok balanced =>
          rw [hrun] at h
          cases h
          exact Or.inr (Or.inr (Or.inr rfl))

theorem Tracking.probe (h : Tracking key n s) (item : α) :
    Tracking key (n + 1) { s with table := s.table.probe key item } where
  intact := h.intact.probe item
  size_le := by
    show (s.table.root.probe key item).size ≤ n + 1
    have hsize := h.size_le
    rw [size_probe]
    split_ifs
    · omega
    · omega
  bounded := h.bounded
  mem x hx := h.intact.ordered.mem_probe (h.mem x hx) item
  shallow x hx := by
    have hpath := path_probe h.intact.ordered (h.mem x hx) item []
    have hlength := congrArg List.length hpath
    rw [length_path, length_path] at hlength
    show (s.table.root.probe key item).depth key (key x) ≤ bstMaxHeight
    rw [Nat.add_right_cancel hlength]
    exact h.shallow x hx
  changes := by
    obtain ⟨k, hk, hgeneration, hpath⟩ := h.changes
    refine ⟨k, Nat.le_succ_of_le hk, hgeneration, fun hzero x hx => ?_⟩
    rw [hpath hzero x hx]
    exact (path_probe h.intact.ordered (h.mem x hx) item []).symm

theorem changes_succ {node : Option α} {stack : List α} {root : SearchTree α}
    {before after : UInt64} {P : Nat → Prop} (h : ∃ k ≤ n, after = before + UInt64.ofNat k ∧ P k) :
    ∃ k ≤ n + 1, after + 1 = before + UInt64.ofNat k ∧
      (k = 0 → ∀ x, node = some x → stack = root.path key (key x) []) := by
  obtain ⟨k, hk, hgeneration, -⟩ := h
  refine ⟨k + 1, Nat.succ_le_succ hk, ?_, fun hzero => absurd hzero (Nat.succ_ne_zero k)⟩
  rw [hgeneration, UInt64.ofNat_add, UInt64.add_assoc]
  rfl

theorem Tracking.delete (h : Tracking key n s) {item found : α} {root : SearchTree α}
    (hspares : s.trav.node.map key ≠ some (key item))
    (hdelete : s.table.root.delete key (key item) = some (found, root)) :
    Tracking key (n + 1) { s with table :=
      { root := root, count := s.table.count - 1, generation := s.table.generation + 1 } } := by
  obtain ⟨hfind, before, behind, hlist, hlist'⟩ := delete_spec hdelete
  have hmem : ∀ x, s.trav.node = some x → x ∈ root.toList := by
    intro x hx
    have hold := h.mem x hx
    rw [hlist, List.mem_append, List.mem_cons] at hold
    rw [hlist', List.mem_append]
    rcases hold with hbefore | rfl | hbehind
    · exact Or.inl hbefore
    · refine absurd ?_ hspares
      rw [hx, Option.map_some, (h.intact.ordered.find_eq_some_iff.mp hfind).2]
    · exact Or.inr hbehind
  exact
    { intact := intact_delete h.intact hdelete
      size_le := by
        have hsize := h.size_le
        rw [size_delete hdelete] at hsize
        show root.size ≤ n + 1
        omega
      bounded := h.bounded
      mem := hmem
      shallow := fun x hx =>
        (depth_delete_le h.intact.ordered hdelete (hmem x hx)).trans (h.shallow x hx)
      changes := changes_succ h.changes }

theorem Tracking.balance (h : Tracking key n s) (hn : n < 2 ^ bstMaxHeight)
    (hrun : bstBalance s.table = .ok table') :
    Tracking key (n + 1) { s with table := table' } := by
  rcases Nat.eq_zero_or_pos s.table.root.size with hempty | hpos
  · rw [bstBalance_empty h.intact hempty] at hrun
    cases hrun
    exact
      { intact := h.intact.of_toList rfl rfl
        size_le := Nat.le_succ_of_le h.size_le
        bounded := h.bounded
        mem := h.mem
        shallow := h.shallow
        changes := changes_succ h.changes }
  · obtain ⟨balanced, hbalanced, hintact, hlist, hlevels, hgeneration⟩ :=
      bstBalance_spec h.intact hpos (h.size_le.trans_lt hn)
    obtain rfl : balanced = table' := Except.ok.inj (hbalanced.symm.trans hrun)
    have hmem : ∀ x, s.trav.node = some x → x ∈ balanced.root.toList := by
      intro x hx
      rw [hlist]
      exact h.mem x hx
    exact
      { intact := hintact
        size_le := by
          show balanced.root.size ≤ n + 1
          rw [← length_toList, hlist, length_toList]
          exact Nat.le_succ_of_le h.size_le
        bounded := h.bounded
        mem := hmem
        shallow := fun x hx =>
          (depth_lt_levels hintact.ordered (hmem x hx)).le.trans hlevels
        changes := by
          show ∃ k ≤ n + 1, balanced.generation = _ ∧ _
          rw [hgeneration]
          exact changes_succ h.changes }

/-- The traverser keeps its item and finds it again through all that the calls change. -/
theorem Tracking.edit [DecidableEq α] (h : Tracking key n s) (hn : n < 2 ^ bstMaxHeight)
    {answer : Option α} {c : Call α} (hspares : Spares key s (.edit c))
    (hcall : call key s.table c = .ok (answer, table')) :
    Tracking key (n + 1) { s with table := table' } := by
  rcases table_of_call hspares hcall with rfl | ⟨item, rfl⟩ |
    ⟨item, found, root, hnode, hdelete, rfl⟩ | hbalance
  · exact h.succ
  · exact h.probe item
  · exact h.delete hnode hdelete
  · exact h.balance hn hbalance

end Edits

section Walking

theorem place_upcoming {root : SearchTree α} (hordered : root.Ordered key) {x : α}
    (hx : x ∈ root.toList) :
    Place root x (root.path key (key x) []) (upcoming key root.toList (some x)) := by
  obtain ⟨done, rest, hlist⟩ := List.append_of_mem hx
  have hpairs := hordered
  rw [Ordered, hlist, List.pairwise_append, List.pairwise_cons] at hpairs
  have hdone : done.filter (fun item => key x < key item) = [] := by
    rw [List.filter_eq_nil_iff]
    intro item hitem
    have hlt := hpairs.2.2 item hitem x List.mem_cons_self
    simpa using hlt.le
  have hrest : rest.filter (fun item => key x < key item) = rest := by
    rw [List.filter_eq_self]
    intro item hitem
    exact decide_eq_true (hpairs.2.1.1 item hitem)
  have hupcoming : upcoming key root.toList (some x) = rest := by
    rw [upcoming, hlist, List.filter_append, hdone, List.filter_cons_of_neg (by simp), hrest]
    rfl
  rw [hupcoming]
  exact place_path hordered hlist

theorem eq_zero_of_generation {generation : UInt64} {k : Nat} (hk : k < 2 ^ 64)
    (h : generation = generation + UInt64.ofNat k) : k = 0 := by
  have hnat := congrArg UInt64.toNat h
  have hlt := generation.toNat_lt
  rw [UInt64.toNat_add, UInt64.toNat_ofNat', Nat.mod_eq_of_lt hk] at hnat
  omega

/-- Behind any changes, `trav_refresh` does not fail, and the traverser stands where it stood. -/
theorem exists_traversing [DecidableEq α] (h : Tracking key n s) (hn : n < 2 ^ bstMaxHeight)
    (calls : Nat) :
    ∃ trav, Traversing s.table trav (upcoming key s.table.root.toList s.trav.node) ∧
      bstTNext key (calls + 1) s.table s.trav = bstTNext key (calls + 1) s.table trav := by
  by_cases hgeneration : s.trav.generation = s.table.generation
  · refine ⟨s.trav, ⟨hgeneration, h.bounded, ?_⟩, rfl⟩
    obtain ⟨k, hk, hchanges, hpath⟩ := h.changes
    rw [← hgeneration] at hchanges
    have hsmall : k < 2 ^ 64 := (hk.trans_lt hn).trans (by decide)
    have hzero := eq_zero_of_generation hsmall hchanges
    cases hnode : s.trav.node with
    | none => rfl
    | some x =>
        dsimp only
        rw [hpath hzero x hnode]
        exact place_upcoming h.intact.ordered (h.mem x hnode)
  · cases hnode : s.trav.node with
    | none =>
        refine ⟨{ node := none, stack := s.trav.stack, generation := s.table.generation },
          ⟨rfl, h.bounded, rfl⟩, ?_⟩
        apply bstTNext_stale s.trav hgeneration _ rfl
        rw [travRefresh, hnode]
        rfl
    | some x =>
        have hx := h.mem x hnode
        have hshallow := h.shallow x hnode
        have hrefresh : refreshStack key x s.table.root [] =
            .ok (s.table.root.path key (key x) []) := by
          apply refreshStack_of_depth h.intact.ordered hx
          rwa [List.length_nil, Nat.zero_add]
        refine ⟨
          { node := some x
            stack := s.table.root.path key (key x) []
            generation := s.table.generation },
          ⟨rfl, ?_, place_upcoming h.intact.ordered hx⟩, ?_⟩
        · dsimp only
          rwa [length_path, List.length_nil, Nat.add_zero]
        · apply bstTNext_stale s.trav hgeneration _ rfl
          rw [travRefresh, hnode]
          dsimp only
          rw [hrefresh]
          rfl

theorem Tracking.stepped (h : Tracking key n s) {rest : List α} {x : Option α}
    {table : BstTable α} {trav : Traverser α} (hstep : Stepped key s.table rest x table trav) :
    Tracking key n { table := table, trav := trav } := by
  have hplace : ∀ x, trav.node = some x → ∃ rest, Place table.root x trav.stack rest := by
    intro x hx
    have hplace := hstep.traversing.place
    rw [hx] at hplace
    exact ⟨_, hplace⟩
  have hpath : ∀ x, trav.node = some x → table.root.path key (key x) [] = trav.stack := by
    intro x hx
    obtain ⟨rest, hrest⟩ := hplace x hx
    exact hrest.path_eq hstep.intact.ordered
  exact
    { intact := hstep.intact
      size_le := by
        show table.root.size ≤ n
        rw [← length_toList, hstep.items, length_toList]
        exact h.size_le
      bounded := hstep.traversing.bounded
      mem := fun x hx => (hplace x hx).elim fun _ hrest => hrest.mem
      shallow := fun x hx => by
        have hbounded := hstep.traversing.bounded
        rwa [← hpath x hx, length_path, List.length_nil, Nat.add_zero] at hbounded
      changes := by
        refine ⟨0, Nat.zero_le _, ?_, fun _ x hx => (hpath x hx).symm⟩
        show table.generation = trav.generation + UInt64.ofNat 0
        rw [hstep.traversing.generation]
        exact (UInt64.add_zero _).symm }

theorem stepped_of_steps {table : BstTable α} {rest : List α}
    {outcome : Except Abort (Option α × BstTable α × Traverser α)}
    (h : Steps key table rest outcome) (hsmall : table.root.size < 2 ^ bstMaxHeight) :
    ∃ x table' trav, outcome = .ok (x, table', trav) ∧ Stepped key table rest x table' trav := by
  cases outcome with
  | error abort => exact absurd hsmall (Nat.not_lt.mpr h.2.2)
  | ok result => exact ⟨result.1, result.2.1, result.2.2, rfl, h⟩

theorem next_spec [DecidableEq α] (h : Tracking key n s) (hn : n < 2 ^ bstMaxHeight) (calls : Nat) :
    ∃ x table trav, bstTNext key (calls + 3) s.table s.trav = .ok (x, table, trav) ∧
      Stepped key s.table (upcoming key s.table.root.toList s.trav.node) x table trav := by
  obtain ⟨trav, htrav, hcall⟩ := exists_traversing h hn (calls + 2)
  rw [hcall]
  exact stepped_of_steps (bstTNext_steps h.intact htrav calls) (h.size_le.trans_lt hn)

theorem first_spec (h : Tracking key n s) (hn : n < 2 ^ bstMaxHeight) (calls : Nat) :
    ∃ x table trav, bstTFirst (calls + 3) s.table = .ok (x, table, trav) ∧
      Stepped key s.table s.table.root.toList x table trav :=
  stepped_of_steps (bstTFirst_steps h.intact (calls + 1)) (h.size_le.trans_lt hn)

/-- Every action is possible, and the traverser stays where it is until it is moved. -/
theorem tracking_step [DecidableEq α] (h : Tracking key n s) (hn : n < 2 ^ bstMaxHeight)
    (calls : Nat) {a : Action α} (hspares : Spares key s a) :
    ∃ s', step key (calls + 3) s a = some s' ∧ Tracking key (n + 1) s' := by
  cases a with
  | edit c =>
      have hrepresents : Represents key s.table fun k => s.table.root.find key k :=
        ⟨h.intact, fun _ => rfl⟩
      obtain ⟨returned, hcall, -⟩ := call_spec hrepresents c (h.size_le.trans_lt hn)
      refine ⟨{ s with table := returned.2 }, ?_, h.edit hn hspares hcall⟩
      rw [step, hcall]
  | init =>
      refine ⟨_, rfl, Tracking.succ ?_⟩
      exact
        { intact := h.intact
          size_le := h.size_le
          bounded := Nat.zero_le _
          mem := nofun
          shallow := nofun
          changes := ⟨0, Nat.zero_le _, (UInt64.add_zero _).symm, fun _ => nofun⟩ }
  | first =>
      obtain ⟨x, table, trav, hrun, hstep⟩ := first_spec h hn calls
      refine ⟨{ table := table, trav := trav }, ?_, (h.stepped hstep).succ⟩
      rw [step, hrun]
  | next =>
      obtain ⟨x, table, trav, hrun, hstep⟩ := next_spec h hn calls
      refine ⟨{ table := table, trav := trav }, ?_, (h.stepped hstep).succ⟩
      rw [step, hrun]

theorem tracking_run [DecidableEq α] (calls : Nat) {as : List (Action α)} (h : Tracking key n s)
    (hspares : Along (step key (calls + 3)) (Spares key) s as)
    (hfew : n + as.length ≤ 2 ^ bstMaxHeight)
    (hrun : run (step key (calls + 3)) s as = some s') : Tracking key (n + as.length) s' := by
  induction as generalizing n s with
  | nil =>
      obtain rfl := Option.some.inj hrun
      exact h
  | cons a as ih =>
      rw [List.length_cons] at hfew
      obtain ⟨next, hnext, hrest⟩ := run_cons_eq_some.mp hrun
      obtain ⟨stepped, hstep, htracking⟩ := tracking_step h (by omega) calls hspares.1
      obtain rfl := Option.some.inj (hstep.symm.trans hnext)
      have hend := ih htracking (hspares.2 stepped hnext) (by omega) hrest
      rwa [Nat.add_right_comm, Nat.add_assoc] at hend

end Walking

/-- In every run, with calls that change the table in between, the next call of `bst_t_next`
returns the first of the items behind the one where the traverser is. -/
theorem walk_throughout [DecidableEq α] (key : α → κ) (calls : Nat) {as : List (Action α)}
    {s : State α} (hspares : Along (step key (calls + 3)) (Spares key) {} as)
    (hfew : as.length < 2 ^ bstMaxHeight)
    (hrun : run (step key (calls + 3)) {} as = some s) :
    (∀ a, Spares key s a → ∃ s', step key (calls + 3) s a = some s') ∧
      ∃ table trav, bstTNext key (calls + 3) s.table s.trav =
          .ok ((upcoming key s.table.root.toList s.trav.node).head?, table, trav) ∧
        trav.node = (upcoming key s.table.root.toList s.trav.node).head? ∧
        table.root.toList = s.table.root.toList := by
  have htracking := tracking_run calls tracking_start hspares (by omega) hrun
  rw [Nat.zero_add] at htracking
  constructor
  · intro a ha
    obtain ⟨s', hstep, -⟩ := tracking_step htracking hfew calls ha
    exact ⟨s', hstep⟩
  · obtain ⟨x, table, trav, hnext, hstep⟩ := next_spec htracking hfew calls
    rw [hstep.returned] at hnext
    exact ⟨table, trav, hnext, hstep.node, hstep.items⟩

/-- The traverser stands at 2 while 3 is deleted and 4 is put in. -/
def editedWalk : List (Action Nat) :=
  [.edit (.insert true 2), .edit (.insert true 1), .edit (.insert true 3), .first, .next,
    .edit (.delete 3), .edit (.probe true 4)]

def editedState : State Nat where
  table :=
    { root := .node (.node .leaf 1 .leaf) 2 (.node .leaf 4 .leaf)
      count := 3
      generation := 1 }
  trav := { node := some 2 }

theorem walk_throughout_edited :
    (∀ a, Spares id editedState a → ∃ s', step id 3 editedState a = some s') ∧
      ∃ table trav, bstTNext id 3 editedState.table editedState.trav =
          .ok (some 4, table, trav) ∧
        trav.node = some 4 ∧ table.root.toList = [1, 2, 4] :=
  walk_throughout id 0 (by decide) (by decide)
    (rfl : run (step id 3) {} editedWalk = some editedState)

end FastDCS.BstWalks
