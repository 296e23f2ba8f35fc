import FastDCS.RbTreeSearches

/-!
Runs of `util_rbtree_insert` and `util_rbtree_delete` from `util_rbtree_init` on, in any
order, and what the tree is in every state that they reach.
-/

namespace FastDCS.RbTrees

open FastDCS.Handlers
open FastDCS.Heaps
open FastDCS.SearchTrees
open FastDCS.SearchTrees.SearchTree
open FastDCS.LinkedTrees
open FastDCS.RedBlackTrees
open FastDCS.HashRings

variable {α : Type} {s t s₀ : UtilRbtree α} {E : Fault → Prop} {p null : Nat}
  {node : LinkedNode (RbItem α)} {tree tree' : Tree α} {rootParent : Option Nat}
  {linked : List Nat} {key : Int}

/-- A red-black search tree stands in the memory. -/
structure RedBlack (null : Nat) (s : UtilRbtree α) (tree : Tree α) (rootParent : Option Nat) :
    Prop where
  stands : Stands null s tree rootParent
  balanced : ∃ n, Balanced itemColor tree .black n
  sorted : Sorted (plains tree)
  sentinel : SentinelBlack null s
  size_eq : s.size = UInt32.ofNat tree.size

section Calls

/-- Memory that differs elsewhere only. -/
theorem RedBlack.congr (h : RedBlack null s tree rootParent) (hnull : t.null = s.null)
    (hroot : t.root = s.root) (hsize : t.size = s.size)
    (hsame : ∀ q ∈ null :: ptrs tree, t.nodes.find? q = s.nodes.find? q) :
    RedBlack null t tree rootParent where
  stands := ⟨hnull.trans h.stands.null_eq,
    h.stands.held.congr fun q hq => hsame q (List.mem_cons_of_mem _ hq), h.stands.nodup,
    hroot.trans h.stands.root_eq⟩
  balanced := h.balanced
  sorted := h.sorted
  sentinel := by
    obtain ⟨sentinel, hfind, hblack⟩ := h.sentinel
    exact ⟨sentinel, (hsame null List.mem_cons_self).trans hfind, hblack⟩
  size_eq := hsize.trans h.size_eq

theorem RedBlack.isSome (h : RedBlack null s tree rootParent) {q : Nat}
    (hq : q ∈ null :: ptrs tree) : (s.nodes.find? q).isSome := by
  rcases List.mem_cons.mp hq with rfl | hq
  · obtain ⟨sentinel, hfind, _⟩ := h.sentinel
    rw [hfind]
    rfl
  · exact h.stands.held.isSome hq

theorem RedBlack.alloc (h : RedBlack null s tree rootParent) (x : LinkedNode (RbItem α)) :
    RedBlack null { s with nodes := s.nodes.alloc x } tree rootParent := by
  refine h.congr rfl rfl rfl fun q hq => ?_
  rw [Heap.find?_alloc, if_neg]
  rintro rfl
  have hlive := h.isSome hq
  rw [Heap.find?_next] at hlive
  cases hlive

theorem RedBlack.free (h : RedBlack null s tree rootParent) {nodes : Heap (LinkedNode (RbItem α))}
    (hfree : s.nodes.delete p = some nodes) (hp : p ∉ null :: ptrs tree) :
    RedBlack null { s with nodes := nodes } tree rootParent := by
  refine h.congr rfl rfl rfl fun q hq => ?_
  rw [Heap.find?_delete hfree, if_neg]
  rintro rfl
  exact hp hq

theorem length_plains (tree : Tree α) : (plains tree).length = tree.size := by
  rw [plains, List.length_map, length_toList]

theorem RedBlack.fixed (hfixed : Fixed null s tree rootParent t) (hsorted : Sorted (plains tree))
    (hs : SentinelBlack null s) (hn : s.null = null) (hsize : s.size = UInt32.ofNat tree.size) :
    ∃ tree', RedBlack null t tree' rootParent ∧ plains tree' = plains tree ∧ Keeps s t := by
  obtain ⟨tree', ht, hbalanced, hplains, hkeeps⟩ := hfixed
  refine ⟨tree', ⟨ht, hbalanced, hplains ▸ hsorted, hs.keeps hn hkeeps, ?_⟩, hplains, hkeeps⟩
  rw [hkeeps.size_eq, hsize, ← length_plains, ← length_plains, hplains]

/-- The tree with a new node in it. -/
theorem RedBlack.ensures_insert (h : RedBlack null s tree (some null))
    (hp : s.nodes.find? p = some node) (hnew : p ∉ ptrs tree) (hne : p ≠ null) :
    Ensures (utilRbtreeInsert p) s
      (fun _ t => ∃ tree', RedBlack null t tree' (some null) ∧
        (plains tree').Perm (⟨p, node.item.key, node.item.data⟩ :: plains tree) ∧
        t.null = s.null ∧ t.nodes.next = s.nodes.next ∧
        ∀ q, (t.nodes.find? q).map label = (s.nodes.find? q).map label) E := by
  obtain ⟨n, hbalanced⟩ := h.balanced
  refine (ensures_utilRbtreeInsert h.stands h.sentinel hbalanced hp hnew hne).imp ?_
  rintro _ t hfixed
  have hperm := perm_insertPath tree (⟨p, node.item⟩ : Placed (RbItem α))
  have hsize := hperm.length_eq
  rw [length_plains, List.length_cons, length_plains] at hsize
  obtain ⟨tree', ht, hplains, hkeeps⟩ := RedBlack.fixed hfixed
    (sorted_insertPath h.sorted (⟨p, node.item⟩ : Placed (RbItem α))) h.sentinel h.stands.null_eq
    (by
      have hold := h.size_eq
      change s.size + 1 = UInt32.ofNat _
      rw [hold, show (1 : UInt32) = UInt32.ofNat 1 from rfl, ← UInt32.ofNat_add]
      exact congrArg UInt32.ofNat hsize.symm)
  exact ⟨tree', ht, hplains ▸ hperm, hkeeps.null_eq, hkeeps.next_eq, hkeeps.labels⟩

theorem Without.sorted {a : Plain α} {l l' : List (Plain α)} (h : Without a l l')
    (hsorted : Sorted l) : Sorted l' := by
  obtain ⟨l₁, l₂, rfl, rfl⟩ := h
  exact hsorted.sublist ((List.sublist_cons_self a l₂).append_left l₁)

theorem Without.perm {a : Plain α} {l l' : List (Plain α)} (h : Without a l l') :
    l.Perm (a :: l') := by
  obtain ⟨l₁, l₂, rfl, rfl⟩ := h
  exact List.perm_middle

/-- The tree without one of its nodes. -/
theorem RedBlack.ensures_delete (h : RedBlack null s tree rootParent) (hp : p ∈ ptrs tree) :
    Ensures (utilRbtreeDelete p) s
      (fun _ t => ∃ tree' rootParent' a, RedBlack null t tree' rootParent' ∧ a.ptr = p ∧
        Without a (plains tree) (plains tree') ∧ t.null = s.null ∧ t.nodes.next = s.nodes.next ∧
        (∀ q, (t.nodes.find? q).map label = (s.nodes.find? q).map label) ∧
        (rootParent' = rootParent ∨ tree'.size = 1)) E := by
  obtain ⟨n, hbalanced⟩ := h.balanced
  obtain ⟨e, he, rfl⟩ := List.mem_map.mp hp
  obtain ⟨above, left, right, rfl⟩ := exists_plug_of_mem he
  refine (ensures_utilRbtreeDelete h.sentinel h.stands hbalanced).imp ?_
  rintro _ t ⟨tree', rootParent', ht, hblack, hwithout, hspares, hparent⟩
  have hsize := hwithout.perm.length_eq
  rw [length_plains, List.length_cons, length_plains] at hsize
  have hsentinel : SentinelBlack null t := by
    have hsame := hspares.black
    change SentinelBlack s.null s → SentinelBlack s.null t at hsame
    rw [h.stands.null_eq] at hsame
    exact hsame h.sentinel
  refine ⟨tree', rootParent', plain e, ⟨ht, hblack, hwithout.sorted h.sorted, hsentinel, ?_⟩, rfl,
    hwithout, hspares.null_eq, hspares.next_eq, hspares.labels, ?_⟩
  · rw [hspares.size_eq]
    change s.size - 1 = _
    rw [h.size_eq, hsize, UInt32.ofNat_add]
    exact UInt32.add_sub_cancel _ _
  · rcases hparent with hparent | ⟨_, htwo, _⟩
    · exact Or.inl hparent
    · exact Or.inr (by omega)

end Calls

section Runs

/-- The parent of the root is the sentinel, if there is a root. -/
def RootKnown (s : UtilRbtree α) : Prop :=
  s.root = s.null ∨ ∃ node, s.nodes.find? s.root = some node ∧ node.parent = some s.null

/-- The states that calls reach, each with the nodes that are in the tree then. A node is
inserted only while the parent of the root is known: the root that comes up when the one
above it is deleted still points to that one. -/
inductive Reached (s₀ : UtilRbtree α) : List Nat → UtilRbtree α → Prop where
  | init {s : UtilRbtree α} : utilRbtreeInit.run s₀ = .ok (⟨⟩, s) → Reached s₀ [] s
  | insert {linked : List Nat} {p : Nat} {s t : UtilRbtree α} :
      Reached s₀ linked s → RootKnown s → (s.nodes.find? p).isSome → p ∉ linked → p ≠ s.null →
      (utilRbtreeInsert p).run s = .ok (⟨⟩, t) → Reached s₀ (p :: linked) t
  | delete {linked : List Nat} {p : Nat} {s t : UtilRbtree α} : Reached s₀ linked s → p ∈ linked →
      (utilRbtreeDelete p).run s = .ok (⟨⟩, t) → Reached s₀ (linked.erase p) t

/-- What holds in every state of a run. -/
structure Holding (s₀ : UtilRbtree α) (linked : List Nat) (s : UtilRbtree α) (tree : Tree α)
    (rootParent : Option Nat) : Prop where
  redBlack : RedBlack s₀.null s tree rootParent
  linked_perm : (ptrs tree).Perm linked
  labels : ∀ q, (s.nodes.find? q).map label = (s₀.nodes.find? q).map label

theorem Stands.of_rootKnown (h : Stands null s tree rootParent) (hknown : RootKnown s) :
    Stands null s tree (some null) := by
  cases tree with
  | leaf => exact ⟨h.null_eq, trivial, h.nodup, h.root_eq⟩
  | node left e right =>
      rcases hknown with hroot | ⟨node, hfind, hparent⟩
      · rw [h.null_eq, h.root_eq] at hroot
        exact absurd (h.readable.top_eq_null_iff.mp hroot) nofun
      · have he := h.held.1
        rw [h.root_eq] at hfind
        have hnode := Option.some.inj (hfind.symm.trans he)
        rw [hnode, h.null_eq] at hparent
        have hsame : rootParent = some null := hparent
        rwa [hsame] at h

/-- The empty tree, on any memory where the sentinel is. -/
theorem ensures_utilRbtreeInit (s₀ : UtilRbtree α) :
    Ensures utilRbtreeInit s₀ (fun _ t => Holding s₀ [] t .leaf (some s₀.null))
      (fun _ => (s₀.nodes.find? s₀.null) = none) := by
  rw [utilRbtreeInit, ensures_bind, ensures_get, ensures_bind]
  cases hfind : s₀.nodes.find? s₀.null with
  | none =>
      simp only [setColor, update, ensures_bind, ensures_get, change, hfind, Option.bind_none,
        ensures_throw]
  | some sentinel =>
      refine ensures_update hfind fun nodes hnext hwrite => ?_
      rw [ensures_bind, ensures_setRoot, ensures_modify]
      refine ⟨⟨⟨rfl, trivial, List.nodup_singleton _, rfl⟩, ⟨0, .leaf⟩, List.Pairwise.nil, ?_, rfl⟩,
        .refl _, fun q => ?_⟩
      · exact ⟨_, (hwrite _).trans (if_pos rfl), rfl⟩
      · change (nodes.find? q).map label = _
        rw [hwrite]
        split_ifs with hq
        · rw [hq, hfind]
          rfl
        · rfl

/-- In every state of a run a red-black search tree of the linked nodes stands in the
memory, whose root is known to hang from the sentinel or is the only node. -/
theorem Reached.holding (h : Reached s₀ linked s) :
    ∃ tree rootParent, Holding s₀ linked s tree rootParent := by
  induction h with
  | init hrun =>
      exact ⟨_, _, (ensures_utilRbtreeInit s₀).of_run_eq_ok hrun⟩
  | @insert linked p s t _ hknown hlive hnew hne hrun ih =>
      obtain ⟨tree, rootParent, hblack, hperm, hlabels⟩ := ih
      obtain ⟨node, hnode⟩ := Option.isSome_iff_exists.mp hlive
      have hstands := hblack.stands.of_rootKnown hknown
      have hready : RedBlack s₀.null s tree (some s₀.null) :=
        ⟨hstands, hblack.balanced, hblack.sorted, hblack.sentinel, hblack.size_eq⟩
      rw [hstands.null_eq] at hne
      have hinsert := hready.ensures_insert (E := fun _ => True) hnode
        (fun hmem => hnew (hperm.mem_iff.mp hmem)) hne
      obtain ⟨tree', ht, hitems, _, _, hsame⟩ := hinsert.of_run_eq_ok hrun
      refine ⟨tree', _, ht, ?_, fun q => (hsame q).trans (hlabels q)⟩
      have hptrs := hitems.map Plain.ptr
      rw [← ptrs_eq, List.map_cons, ← ptrs_eq] at hptrs
      exact hptrs.trans (hperm.cons p)
  | @delete linked p s t _ hmem hrun ih =>
      obtain ⟨tree, rootParent, hblack, hperm, hlabels⟩ := ih
      have hdelete := hblack.ensures_delete (E := fun _ => True) (hperm.mem_iff.mpr hmem)
      obtain ⟨tree', rootParent', a, ht, rfl, hwithout, _, _, hsame, _⟩ := hdelete.of_run_eq_ok hrun
      refine ⟨tree', rootParent', ht, ?_, fun q => (hsame q).trans (hlabels q)⟩
      have hptrs := hwithout.perm.map Plain.ptr
      rw [← ptrs_eq, List.map_cons, ← ptrs_eq] at hptrs
      exact (List.cons_perm_iff_perm_erase.mp (hptrs.symm.trans hperm)).2

theorem Stands.rootKnown (h : Stands null s tree (some null)) : RootKnown s := by
  rw [RootKnown, h.null_eq, h.root_eq]
  cases tree with
  | leaf => exact Or.inl rfl
  | node left e right => exact Or.inr ⟨_, h.held.1, rfl⟩

theorem Holding.readied (h : Holding s₀ linked s tree rootParent) (hknown : RootKnown s) :
    RedBlack s₀.null s tree (some s₀.null) :=
  ⟨h.redBlack.stands.of_rootKnown hknown, h.redBlack.balanced, h.redBlack.sorted,
    h.redBlack.sentinel, h.redBlack.size_eq⟩

theorem Reached.exists_insert (h : Reached s₀ linked s) (hknown : RootKnown s)
    (hlive : (s.nodes.find? p).isSome) (hnew : p ∉ linked) (hne : p ≠ s.null) :
    ∃ t, (utilRbtreeInsert p).run s = .ok (⟨⟩, t) ∧ RootKnown t := by
  obtain ⟨tree, rootParent, hholding⟩ := h.holding
  obtain ⟨node, hnode⟩ := Option.isSome_iff_exists.mp hlive
  have hready := hholding.readied hknown
  rw [hready.stands.null_eq] at hne
  obtain ⟨⟨_, t⟩, hrun, tree', ht, _⟩ := (hready.ensures_insert hnode
    (fun hmem => hnew (hholding.linked_perm.mem_iff.mp hmem)) hne).returns
  exact ⟨t, hrun, ht.stands.rootKnown⟩

theorem Reached.exists_delete (h : Reached s₀ linked s) (hp : p ∈ linked) :
    ∃ t, (utilRbtreeDelete p).run s = .ok (⟨⟩, t) ∧
      (RootKnown s → RootKnown t ∨ linked.length = 2) := by
  obtain ⟨tree, rootParent, hholding⟩ := h.holding
  have hmem := hholding.linked_perm.mem_iff.mpr hp
  obtain ⟨⟨_, t⟩, hrun, _⟩ := (hholding.redBlack.ensures_delete hmem).returns
  refine ⟨t, hrun, fun hknown => ?_⟩
  obtain ⟨tree', rootParent', a, ht, _, hwithout, _, _, _, hparent⟩ :=
    ((hholding.readied hknown).ensures_delete (E := fun _ => True) hmem).of_run_eq_ok hrun
  rcases hparent with rfl | hone
  · exact Or.inl ht.stands.rootKnown
  · have hcount := hwithout.perm.length_eq
    rw [length_plains, List.length_cons, length_plains, hone, ← length_plains] at hcount
    have hlength := hholding.linked_perm.length_eq
    rw [ptrs_eq, List.length_map, hcount] at hlength
    exact Or.inr hlength.symm

/-- A sentinel and two nodes, before anything is called. -/
def blankMemory : UtilRbtree Unit where
  nodes := ((Heap.empty.alloc ⟨⟨0, .red, ()⟩, none, none, none⟩).alloc
    ⟨⟨5, .red, ()⟩, none, none, none⟩).alloc ⟨⟨3, .red, ()⟩, none, none, none⟩
  root := 0
  null := 0
  size := 0

theorem reached_blankMemory : ∃ s, Reached blankMemory [2, 1] s := by
  have hlive {linked : List Nat} {s : UtilRbtree Unit} (h : Reached blankMemory linked s) (p : Nat)
      (hp : (blankMemory.nodes.find? p).isSome) : (s.nodes.find? p).isSome := by
    obtain ⟨_, _, hholding⟩ := h.holding
    rw [isSome_of_labels (hholding.labels p), hp]
  have hnull {linked : List Nat} {s : UtilRbtree Unit} (h : Reached blankMemory linked s) :
      s.null = 0 := by
    obtain ⟨_, _, hholding⟩ := h.holding
    exact hholding.redBlack.stands.null_eq
  obtain ⟨s, hs, hknown⟩ : ∃ s, Reached blankMemory [] s ∧ RootKnown s :=
    ⟨_, .init rfl, Or.inl rfl⟩
  have hne : (1 : Nat) ≠ s.null := by
    rw [hnull hs]
    decide
  obtain ⟨t, hrun, hknown'⟩ := hs.exists_insert hknown (hlive hs 1 rfl) nofun hne
  have ht := hs.insert hknown (hlive hs 1 rfl) nofun hne hrun
  have hne' : (2 : Nat) ≠ t.null := by
    rw [hnull ht]
    decide
  obtain ⟨u, hrun', _⟩ := ht.exists_insert hknown' (hlive ht 2 rfl) (by decide) hne'
  exact ⟨u, ht.insert hknown' (hlive ht 2 rfl) (by decide) hne' hrun'⟩

end Runs

section Results

/-- In every state of a run the tree is a red-black search tree of the linked nodes, no
deeper than that allows, and the next call returns. The root stays known, unless a node is
deleted of a tree of two. -/
theorem redBlack_throughout (h : Reached s₀ linked s) :
    (∃ tree rootParent n, Stands s₀.null s tree rootParent ∧ Balanced itemColor tree .black n ∧
      Sorted (plains tree) ∧ (ptrs tree).Perm linked ∧
      tree.levels ≤ 2 * Nat.log 2 (linked.length + 1)) ∧
    s.size = UInt32.ofNat linked.length ∧
    (∀ q, (s.nodes.find? q).map label = (s₀.nodes.find? q).map label) ∧
    (∀ p, RootKnown s → (s.nodes.find? p).isSome → p ∉ linked → p ≠ s.null →
      ∃ t, (utilRbtreeInsert p).run s = .ok (⟨⟩, t) ∧ RootKnown t) ∧
    ∀ p ∈ linked, ∃ t, (utilRbtreeDelete p).run s = .ok (⟨⟩, t) ∧
      (RootKnown s → RootKnown t ∨ linked.length = 2) := by
  obtain ⟨tree, rootParent, hblack, hperm, hlabels⟩ := h.holding
  obtain ⟨n, hbalanced⟩ := hblack.balanced
  have hlength : tree.size = linked.length := by
    rw [← hperm.length_eq, ptrs_eq, List.length_map, length_plains]
  have hlevels := hbalanced.levels_le_log
  rw [hlength] at hlevels
  exact ⟨⟨tree, rootParent, n, hblack.stands, hbalanced, hblack.sorted, hperm, hlevels⟩,
    hlength ▸ hblack.size_eq, hlabels, fun p => h.exists_insert, fun p => h.exists_delete⟩

theorem redBlack_throughout_two : ∃ s t, Reached blankMemory [2, 1] s ∧
    (utilRbtreeDelete 1).run s = .ok (⟨⟩, t) := by
  obtain ⟨s, hs⟩ := reached_blankMemory
  obtain ⟨_, _, _, _, hdelete⟩ := redBlack_throughout hs
  obtain ⟨t, hrun, _⟩ := hdelete 1 (by decide)
  exact ⟨s, t, hs, hrun⟩

/-- The key of a node of the memory. -/
def keyAt (s : UtilRbtree α) (p : Nat) : Int :=
  match s.nodes.find? p with
  | some node => node.item.key
  | none => 0

theorem Stands.keyAt_eq (h : Stands null s tree rootParent) {a : Plain α} (ha : a ∈ plains tree) :
    keyAt s a.ptr = a.key := by
  obtain ⟨e, he, rfl⟩ := List.mem_map.mp ha
  obtain ⟨node, hnode, hitem⟩ := Option.map_eq_some_iff.mp (h.held.item_eq he)
  rw [keyAt, show s.nodes.find? (plain e).ptr = some node from hnode]
  exact congrArg RbItem.key hitem

/-- In every state of a run, the search finds a linked node with the key if there is one,
and the lookup the linked node that the key belongs to on a ring. -/
theorem searches_throughout (h : Reached s₀ linked s) (key : Int) :
    (∃ r, (utilRbtreeSearch key).run s = .ok (r, s) ∧
      (r = none ↔ ∀ q ∈ linked, keyAt s q ≠ key) ∧
      ∀ p, r = some p → p ∈ linked ∧ keyAt s p = key) ∧
    ∃ r, (utilRbtreeLookup key).run s = .ok (r, s) ∧ (r = none ↔ linked = []) ∧
      ∀ p, r = some p → Owner (keyAt s) { q | q ∈ linked } key p := by
  obtain ⟨tree, rootParent, hblack, hperm, _⟩ := h.holding
  have hmem (q : Nat) : q ∈ linked ↔ ∃ a ∈ plains tree, a.ptr = q := by
    rw [← hperm.mem_iff, ptrs_eq, List.mem_map]
  have hkey (a : Plain α) (ha : a ∈ plains tree) := hblack.stands.keyAt_eq ha
  refine ⟨?_, ?_⟩
  · obtain ⟨⟨r, t⟩, hrun, rfl, hnone, hsome⟩ :=
      (ensures_utilRbtreeSearch hblack.stands hblack.sorted key).returns
    refine ⟨r, hrun, ⟨fun hr q hq => ?_, fun hall => ?_⟩, fun p hp => ?_⟩
    · obtain ⟨a, ha, rfl⟩ := (hmem q).mp hq
      rw [hkey a ha]
      exact hnone hr a ha
    · cases r with
      | none => rfl
      | some p =>
          obtain ⟨a, ha, rfl, rfl⟩ := hsome p rfl
          exact absurd (hkey a ha) (hall a.ptr ((hmem _).mpr ⟨a, ha, rfl⟩))
    · obtain ⟨a, ha, rfl, rfl⟩ := hsome p hp
      exact ⟨(hmem _).mpr ⟨a, ha, rfl⟩, hkey a ha⟩
  · obtain ⟨⟨r, t⟩, hrun, rfl, hr⟩ :=
      (ensures_utilRbtreeLookup hblack.stands hblack.sorted key).returns
    dsimp only at hr
    subst hr
    refine ⟨_, hrun, ?_, fun p hp => ?_⟩
    · rw [Option.map_eq_none_iff, lookup_eq_none_iff, ← List.map_eq_nil_iff (f := Plain.ptr),
        ← ptrs_eq]
      exact ⟨fun hnil => List.nil_perm.mp (hnil ▸ hperm),
        fun hnil => List.perm_nil.mp (hnil ▸ hperm)⟩
    · obtain ⟨a, ha, rfl⟩ := Option.map_eq_some_iff.mp hp
      have howner := (owner_of_lookup hblack.sorted ha).image hkey
      have hitems : Plain.ptr '' { b | b ∈ plains tree } = { q | q ∈ linked } := by
        ext q
        exact (hmem q).symm
      rwa [hitems] at howner

theorem searches_throughout_two : ∃ s, Reached blankMemory [2, 1] s ∧
    ∃ p ∈ [2, 1], (utilRbtreeLookup 4).run s = .ok (some p, s) := by
  obtain ⟨s, hs⟩ := reached_blankMemory
  obtain ⟨_, r, hrun, hnone, hsome⟩ := searches_throughout hs 4
  cases r with
  | none => exact absurd (hnone.mp rfl) (by decide)
  | some p => exact ⟨s, hs, p, (hsome p rfl).mem, hrun⟩

end Results

end FastDCS.RbTrees
