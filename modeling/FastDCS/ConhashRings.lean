import FastDCS.ConhashNodes

/-!
What the tree of virtual nodes stands for: a ring that has a server at some hashes. The
turns of `__conhash_add_replicas` and `__conhash_del_replicas` as turns on the ring.
-/

namespace FastDCS.ConhashNodes

open FastDCS.Handlers
open FastDCS.Heaps
open FastDCS.SearchTrees
open FastDCS.LinkedTrees
open FastDCS.RedBlackTrees
open FastDCS.RbTrees
open FastDCS.Strings

/-- The servers at the hashes of their virtual nodes. -/
abbrev Ring := Int → Option Nat

variable {platform : Platform} {c d : ConhashS} {E : Fault → Prop} {ring : Ring}
  {tree : RbTrees.Tree Nat} {rootParent : Option Nat} {hash : Int} {node p : Nat}
  {i : UInt32} {a b : Plain Nat}

section Memory

theorem ensures_onTree {β : Type} {x : Program Nat β} {Q : β → ConhashS → Prop} :
    Ensures (onTree x) c Q E ↔
      Ensures x c.vnodeTree (fun b tree => Q b { c with vnodeTree := tree }) E := by
  unfold Ensures
  cases hx : x.run c.vnodeTree with
  | ok r =>
      have hrun : (onTree x).run c = .ok (r.1, { c with vnodeTree := r.2 }) := by
        change onTree x c = _
        rw [onTree, hx]
      rw [hrun]
  | error e =>
      have hrun : (onTree x).run c = .error e := by
        change onTree x c = _
        rw [onTree, hx]
      rw [hrun]

theorem ensures_malloc {Q : Bool → ConhashS → Prop} :
    Ensures (malloc platform) c Q E ↔
      Q (!platform.mallocFails c.mallocs) { c with mallocs := c.mallocs + 1 } := Iff.rfl

theorem ensures_cString {field : List Char} {Q : Str → ConhashS → Prop}
    (hend : '\x00' ∈ field) (hQ : Q (field.takeWhile (· ≠ '\x00')) c) :
    Ensures (cString field) c Q E := by
  rw [cString, if_pos hend]
  exact hQ

end Memory

/-- What is in the memory of a `conhash_s`, and nothing else is. -/
structure Stores (c : ConhashS) (ring : Ring) (tree : RbTrees.Tree Nat) (rootParent : Option Nat) :
    Prop where
  redBlack : RedBlack c.vnodeTree.null c.vnodeTree tree rootParent
  keys_nodup : ((plains tree).map Plain.key).Nodup
  stored : ∀ a ∈ plains tree, ∃ n, c.vnodes.find? a.data = some ⟨a.key, n⟩ ∧
    ring a.key = some n
  covered : ∀ h n, ring h = some n → ∃ a ∈ plains tree, a.key = h
  nodes_owned : c.vnodeTree.nodes.Owns (c.vnodeTree.null :: ptrs tree)
  vnodes_owned : c.vnodes.Owns ((plains tree).map Plain.data)

structure Represents (c : ConhashS) (ring : Ring) (tree : RbTrees.Tree Nat)
    (rootParent : Option Nat) : Prop extends Stores c ring tree rootParent where
  ivnodes_eq : c.ivnodes = c.vnodeTree.size

namespace Stores

theorem ring_eq_none_iff (h : Stores c ring tree rootParent) :
    ring hash = none ↔ ∀ a ∈ plains tree, a.key ≠ hash := by
  constructor
  · rintro hnone a ha rfl
    obtain ⟨n, _, hn⟩ := h.stored a ha
    rw [hnone] at hn
    cases hn
  · intro hall
    cases hring : ring hash with
    | none => rfl
    | some n =>
        obtain ⟨a, ha, hkey⟩ := h.covered hash n hring
        exact absurd hkey (hall a ha)

theorem eq_of_key (h : Stores c ring tree rootParent) (ha : a ∈ plains tree)
    (hb : b ∈ plains tree) (hkey : a.key = b.key) : a = b :=
  List.inj_on_of_nodup_map h.keys_nodup ha hb hkey

theorem nodup_ptrs (h : Stores c ring tree rootParent) : (ptrs tree).Nodup :=
  (List.nodup_cons.mp h.redBlack.stands.nodup).2

theorem eq_of_ptr (h : Stores c ring tree rootParent) (ha : a ∈ plains tree)
    (hb : b ∈ plains tree) (hptr : a.ptr = b.ptr) : a = b := by
  have hnodup := h.nodup_ptrs
  rw [ptrs_eq] at hnodup
  exact List.inj_on_of_nodup_map hnodup ha hb hptr

theorem rbnode_find? (h : Stores c ring tree rootParent) (ha : a ∈ plains tree) :
    ∃ rbnode, c.vnodeTree.nodes.find? a.ptr = some rbnode ∧ label rbnode = (a.key, a.data) := by
  obtain ⟨e, he, rfl⟩ := List.mem_map.mp ha
  obtain ⟨rbnode, hfind, hitem⟩ :=
    Option.map_eq_some_iff.mp (h.redBlack.stands.held.item_eq he)
  exact ⟨rbnode, hfind, by rw [label, hitem]; rfl⟩

end Stores

/-- The tree does not know how often `malloc` was called. -/
theorem Represents.remembered (h : Represents c ring tree rootParent) (mallocs : Nat) :
    Represents { c with mallocs := mallocs } ring tree rootParent :=
  ⟨⟨h.redBlack, h.keys_nodup, h.stored, h.covered, h.nodes_owned, h.vnodes_owned⟩, h.ivnodes_eq⟩

theorem Represents.served (h : Represents c ring tree rootParent) (servers : Nat → NodeS) :
    Represents { c with servers := servers } ring tree rootParent :=
  ⟨⟨h.redBlack, h.keys_nodup, h.stored, h.covered, h.nodes_owned, h.vnodes_owned⟩, h.ivnodes_eq⟩

section Searching

/-- The search for a hash finds what the ring has there. -/
theorem ensures_search (h : Represents c ring tree rootParent) (hash : Int) :
    Ensures (onTree (utilRbtreeSearch hash)) c
      (fun r d => d = c ∧ (r = none ↔ ring hash = none) ∧
        ∀ p, r = some p → ∃ a ∈ plains tree, a.ptr = p ∧ a.key = hash) E := by
  rw [ensures_onTree]
  refine (ensures_utilRbtreeSearch h.redBlack.stands h.redBlack.sorted hash).imp ?_
  rintro r t ⟨rfl, hnone, hsome⟩
  refine ⟨rfl, ⟨fun hr => h.ring_eq_none_iff.mpr (hnone hr), fun hring => ?_⟩, hsome⟩
  cases r with
  | none => rfl
  | some p =>
      obtain ⟨a, ha, _, hkey⟩ := hsome p rfl
      exact absurd hkey (h.ring_eq_none_iff.mp hring a ha)

end Searching

section Turns

/-- The ring, and how often `malloc` has been called. -/
structure RingState where
  ring : Ring
  mallocs : Nat

/-- A virtual node comes to a hash that is free, if there is memory. -/
def RingState.add (platform : Platform) (hash : Int) (node : Nat) (r : RingState) : RingState :=
  if (r.ring hash).isSome then r
  else if platform.mallocFails r.mallocs then { r with mallocs := r.mallocs + 1 }
  else if platform.mallocFails (r.mallocs + 1) then { r with mallocs := r.mallocs + 2 }
  else ⟨Function.update r.ring hash (some node), r.mallocs + 2⟩

/-- A server's own virtual node goes. -/
def RingState.del (hash : Int) (node : Nat) (r : RingState) : RingState :=
  if r.ring hash = some node then { r with ring := Function.update r.ring hash none } else r

/-- The hash of a virtual node. -/
def hashOf (platform : Platform) (server : NodeS) (i : UInt32) : Int :=
  platform.hashfunc (conhashNode2string (server.iden.takeWhile (· ≠ '\x00')) i)

theorem ensures_vnodeHash {Q : Int → ConhashS → Prop}
    (hend : '\x00' ∈ (c.servers node).iden) (hQ : Q (hashOf platform (c.servers node) i) c) :
    Ensures (vnodeHash platform node i) c Q E := by
  rw [vnodeHash, ensures_bind, ensures_get, ensures_bind]
  exact ensures_cString hend hQ

/-- The memory of a new node of the tree and of its virtual node. -/
def withRbnode (c : ConhashS) (hash : Int) (node : Nat) : ConhashS :=
  { c with
    vnodeTree := { c.vnodeTree with
      nodes := c.vnodeTree.nodes.alloc ⟨⟨hash, .red, c.vnodes.next⟩, none, none, none⟩ }
    vnodes := c.vnodes.alloc ⟨hash, node⟩
    mallocs := c.mallocs + 2 }

theorem ensures_conhashGetRbnode {Q : Option Nat → ConhashS → Prop}
    (hfirst : platform.mallocFails c.mallocs → Q none { c with mallocs := c.mallocs + 1 })
    (hsecond : platform.mallocFails c.mallocs = false → platform.mallocFails (c.mallocs + 1) →
      Q none { c with mallocs := c.mallocs + 2 })
    (hboth : platform.mallocFails c.mallocs = false →
      platform.mallocFails (c.mallocs + 1) = false →
      Q (some c.vnodeTree.nodes.next) (withRbnode c hash node)) :
    Ensures (conhashGetRbnode platform node hash) c Q E := by
  rw [conhashGetRbnode, ensures_bind, ensures_malloc]
  cases hone : platform.mallocFails c.mallocs with
  | true =>
      rw [Bool.not_true, if_neg nofun]
      exact hfirst hone
  | false =>
      rw [Bool.not_false, if_pos rfl, ensures_bind, ensures_malloc]
      cases htwo : platform.mallocFails (c.mallocs + 1) with
      | true =>
          rw [Bool.not_true, if_neg nofun]
          exact hsecond hone htwo
      | false =>
          rw [Bool.not_false, if_pos rfl]
          exact hboth hone htwo

/-- A new node is linked into the tree. -/
theorem ensures_insert_rbnode (h : Represents c ring tree (some c.vnodeTree.null))
    (hfree : ring hash = none) (node : Nat) :
    Ensures (do
        onTree (utilRbtreeInsert c.vnodeTree.nodes.next)
        modify fun c => { c with ivnodes := c.ivnodes + 1 }) (withRbnode c hash node)
      (fun _ d => ∃ tree', Represents d (Function.update ring hash (some node)) tree'
          (some d.vnodeTree.null) ∧ d.vnodeTree.null = c.vnodeTree.null ∧
        d.servers = c.servers ∧ d.mallocs = c.mallocs + 2) E := by
  have hnew : c.vnodeTree.nodes.next ∉ c.vnodeTree.null :: ptrs tree := by
    intro hmem
    have hlive := h.redBlack.isSome hmem
    rw [Heap.find?_next] at hlive
    cases hlive
  rw [List.mem_cons, not_or] at hnew
  have hready := h.redBlack.alloc ⟨⟨hash, .red, c.vnodes.next⟩, none, none, none⟩
  rw [ensures_bind, ensures_onTree]
  refine (hready.ensures_insert (Heap.find?_alloc.trans (if_pos rfl)) hnew.2 hnew.1).imp ?_
  rintro _ t ⟨tree', ht, hperm, hnull, _, hlabels⟩
  rw [ensures_modify]
  have hnull' : t.null = c.vnodeTree.null := hnull
  have hmem : ∀ a, a ∈ plains tree' ↔
      a = ⟨c.vnodeTree.nodes.next, hash, c.vnodes.next⟩ ∨ a ∈ plains tree := fun a => by
    rw [hperm.mem_iff, List.mem_cons]
  have hkey := h.ring_eq_none_iff.mp hfree
  refine ⟨tree', ⟨⟨?_, ?_, fun a ha => ?_, fun k n hk => ?_, ?_, ?_⟩, ?_⟩, hnull', rfl, rfl⟩
  · change RedBlack t.null t tree' (some t.null)
    rw [hnull']
    exact ht
  · refine (hperm.map Plain.key).nodup_iff.mpr (List.nodup_cons.mpr ⟨fun hin => ?_, h.keys_nodup⟩)
    obtain ⟨a, ha, heq⟩ := List.mem_map.mp hin
    exact hkey a ha heq
  · change ∃ n, (c.vnodes.alloc ⟨hash, node⟩).find? a.data = _ ∧ _
    rw [Heap.find?_alloc]
    rcases (hmem a).mp ha with rfl | ha
    · exact ⟨node, if_pos rfl, Function.update_self _ _ _⟩
    · obtain ⟨n, hfind, hring⟩ := h.stored a ha
      refine ⟨n, ?_, by rw [Function.update_of_ne (hkey a ha), hring]⟩
      rw [if_neg, hfind]
      intro heq
      rw [heq, Heap.find?_next] at hfind
      cases hfind
  · by_cases hsame : k = hash
    · exact ⟨_, (hmem _).mpr (Or.inl rfl), hsame.symm⟩
    · rw [Function.update_of_ne hsame] at hk
      obtain ⟨a, ha, heq⟩ := h.covered k n hk
      exact ⟨a, (hmem a).mpr (Or.inr ha), heq⟩
  · change t.nodes.Owns (t.null :: ptrs tree')
    rw [hnull']
    have howns := (h.nodes_owned.alloc ⟨⟨hash, .red, c.vnodes.next⟩, none, none, none⟩).of_isSome_eq
      fun q => isSome_of_labels (hlabels q)
    refine howns.perm ?_
    have hptrs := hperm.map Plain.ptr
    rw [← ptrs_eq, List.map_cons, ← ptrs_eq] at hptrs
    exact (List.Perm.swap _ _ _).trans (hptrs.symm.cons _)
  · exact (h.vnodes_owned.alloc ⟨hash, node⟩).perm (hperm.map Plain.data).symm
  · change c.ivnodes + 1 = t.size
    have hlength := hperm.length_eq
    rw [length_plains, List.length_cons, length_plains] at hlength
    rw [h.ivnodes_eq, h.redBlack.size_eq, ht.size_eq, hlength, UInt32.ofNat_add]
    rfl

/-- A turn that adds a virtual node, or finds its hash taken or no memory. -/
theorem ensures_addReplica {r : RingState} (h : Represents c r.ring tree (some c.vnodeTree.null))
    (hmallocs : c.mallocs = r.mallocs) (hend : '\x00' ∈ (c.servers node).iden) :
    Ensures (addReplica platform node i) c
      (fun _ d => ∃ tree', Represents d
          (r.add platform (hashOf platform (c.servers node) i) node).ring tree'
          (some d.vnodeTree.null) ∧
        d.mallocs = (r.add platform (hashOf platform (c.servers node) i) node).mallocs ∧
        d.servers = c.servers) E := by
  rw [addReplica, ensures_bind]
  refine ensures_vnodeHash hend ?_
  generalize hashOf platform (c.servers node) i = hash
  rw [ensures_bind]
  refine (ensures_search h hash).imp ?_
  rintro found d ⟨rfl, hnone, _⟩
  rw [ensures_ite, hnone]
  refine ⟨fun hfree => ?_, fun htaken => ?_⟩
  · have hnotTaken : ¬(r.ring hash).isSome := by
      rw [hfree]
      exact nofun
    rw [ensures_bind]
    refine ensures_conhashGetRbnode (fun hone => ?_) (fun hone htwo => ?_) fun hone htwo => ?_
    · rw [hmallocs] at hone
      rw [RingState.add, if_neg hnotTaken, if_pos hone]
      exact ⟨tree, h.remembered _, by rw [hmallocs], rfl⟩
    · rw [hmallocs] at hone htwo
      rw [RingState.add, if_neg hnotTaken, hone, if_neg nofun, if_pos htwo]
      exact ⟨tree, h.remembered _, by rw [hmallocs], rfl⟩
    · rw [hmallocs] at hone htwo
      rw [RingState.add, if_neg hnotTaken, hone, htwo, if_neg nofun, if_neg nofun]
      refine (ensures_insert_rbnode h hfree node).imp ?_
      rintro _ e ⟨tree', he, _, hservers, hcount⟩
      exact ⟨tree', he, by rw [hcount, hmallocs], hservers⟩
  · have hsome : (r.ring hash).isSome := Option.isSome_iff_ne_none.mpr htaken
    rw [RingState.add, if_pos hsome]
    exact ⟨tree, h, hmallocs, rfl⟩

theorem ensures_freeVnode {x : VirtualNode} (hp : c.vnodes.find? p = some x)
    {Q : PUnit → ConhashS → Prop}
    (hQ : ∀ vnodes, c.vnodes.delete p = some vnodes → Q ⟨⟩ { c with vnodes := vnodes }) :
    Ensures (freeVnode p) c Q E := by
  obtain ⟨vnodes, hdelete⟩ := c.vnodes.exists_delete (p := p) (by rw [hp]; rfl)
  simp only [freeVnode, ensures_bind, ensures_get, hdelete]
  exact hQ vnodes hdelete

theorem ensures_freeRbnode (hp : (c.vnodeTree.nodes.find? p).isSome)
    {Q : PUnit → ConhashS → Prop}
    (hQ : ∀ nodes, c.vnodeTree.nodes.delete p = some nodes →
      Q ⟨⟩ { c with vnodeTree := { c.vnodeTree with nodes := nodes } }) :
    Ensures (freeRbnode p) c Q E := by
  obtain ⟨nodes, hdelete⟩ := c.vnodeTree.nodes.exists_delete hp
  simp only [freeRbnode, ensures_bind, ensures_get, hdelete]
  exact hQ nodes hdelete

theorem ensures_dataOf {rbnode : LinkedNode (RbItem Nat)}
    (hp : c.vnodeTree.nodes.find? p = some rbnode) {Q : Nat → ConhashS → Prop}
    (hQ : Q rbnode.item.data c) : Ensures (dataOf p) c Q E := by
  rw [dataOf, ensures_onTree, ensures_bind]
  exact ensures_nodeAt hp hQ

/-- A node is taken out of the tree and freed with its virtual node. -/
theorem ensures_delete_rbnode (h : Stores c ring tree rootParent) (ha : a ∈ plains tree) :
    Ensures (do
        onTree (utilRbtreeDelete a.ptr)
        conhashDelRbnode a.ptr) c
      (fun _ d => ∃ tree' rootParent',
        Stores d (Function.update ring a.key none) tree' rootParent' ∧
        tree.size = tree'.size + 1 ∧ (rootParent' = rootParent ∨ tree'.size = 1) ∧
        d.vnodeTree.null = c.vnodeTree.null ∧ d.ivnodes = c.ivnodes ∧ d.servers = c.servers ∧
        d.mallocs = c.mallocs) E := by
  obtain ⟨n, hfind, hring⟩ := h.stored a ha
  obtain ⟨rbnode, hrbnode, hlabel⟩ := h.rbnode_find? ha
  have hptr : a.ptr ∈ ptrs tree := by
    rw [ptrs_eq]
    exact List.mem_map_of_mem ha
  rw [ensures_bind, ensures_onTree]
  refine (h.redBlack.ensures_delete hptr).imp ?_
  rintro _ t ⟨tree', rootParent', a', ht, hsame, hwithout, hnull, _, hlabels, hparent⟩
  have hperm := hwithout.perm
  have ha' : a' ∈ plains tree := hperm.mem_iff.mpr List.mem_cons_self
  obtain rfl := h.eq_of_ptr ha' ha hsame
  have hnull' : t.null = c.vnodeTree.null := hnull
  have hptrs := hperm.map Plain.ptr
  rw [← ptrs_eq, List.map_cons, ← ptrs_eq] at hptrs
  have hnodup := (hptrs.cons c.vnodeTree.null).nodup_iff.mp h.redBlack.stands.nodup
  have hgone : a'.ptr ∉ c.vnodeTree.null :: ptrs tree' :=
    (List.nodup_cons.mp ((List.Perm.swap _ _ _).nodup_iff.mp hnodup)).1
  have hkeys := (hperm.map Plain.key).nodup_iff.mp h.keys_nodup
  have hdata := (hperm.map Plain.data).nodup_iff.mp h.vnodes_owned.nodup
  rw [List.map_cons, List.nodup_cons] at hkeys hdata
  -- the data of the node is still there
  have hlabel' := hlabels a'.ptr
  rw [hrbnode, Option.map_some, hlabel] at hlabel'
  obtain ⟨rbnode', hrbnode', hsame'⟩ := Option.map_eq_some_iff.mp hlabel'
  rw [conhashDelRbnode, ensures_bind]
  refine ensures_dataOf hrbnode' ?_
  rw [show rbnode'.item.data = a'.data from congrArg Prod.snd hsame', ensures_bind]
  have hfind' : ({ c with vnodeTree := t } : ConhashS).vnodes.find? a'.data = _ := hfind
  refine ensures_freeVnode hfind' fun vnodes hvnodes => ?_
  refine ensures_freeRbnode (by dsimp only; rw [hrbnode']; rfl) fun nodes hnodes => ?_
  have hsize := hperm.length_eq
  rw [length_plains, List.length_cons, length_plains] at hsize
  refine ⟨tree', rootParent', ⟨?_, hkeys.2, fun b hb => ?_, fun k m hk => ?_, ?_, ?_⟩, hsize,
    hparent, hnull', rfl, rfl, rfl⟩
  · change RedBlack t.null { t with nodes := nodes } tree' rootParent'
    have hfreed := ht.free hnodes hgone
    rw [← hnull'] at hfreed
    exact hfreed
  · obtain ⟨m, hm, hringb⟩ := h.stored b (hperm.mem_iff.mpr (List.mem_cons_of_mem _ hb))
    refine ⟨m, (Heap.find?_delete hvnodes).trans ?_, ?_⟩
    · rw [if_neg, hm]
      intro heq
      exact hdata.1 (heq ▸ List.mem_map_of_mem hb)
    · rw [Function.update_of_ne, hringb]
      intro heq
      exact hkeys.1 (heq ▸ List.mem_map_of_mem hb)
  · by_cases hsameKey : k = a'.key
    · rw [hsameKey, Function.update_self] at hk
      cases hk
    · rw [Function.update_of_ne hsameKey] at hk
      obtain ⟨b, hb, hkey⟩ := h.covered k m hk
      rcases List.mem_cons.mp (hperm.mem_iff.mp hb) with rfl | hb
      · exact absurd hkey.symm hsameKey
      · exact ⟨b, hb, hkey⟩
  · change nodes.Owns (t.null :: ptrs tree')
    rw [hnull']
    have howns := h.nodes_owned.of_isSome_eq fun q => isSome_of_labels (hlabels q)
    refine Heap.Owns.delete (howns.perm ?_) hnodes
    exact (hptrs.cons _).trans (List.Perm.swap _ _ _)
  · exact Heap.Owns.delete (h.vnodes_owned.perm (hperm.map Plain.data)) hvnodes

/-- The root hangs from the sentinel, or there is no more than one node. -/
def Safe (c : ConhashS) (tree : RbTrees.Tree Nat) (rootParent : Option Nat) : Prop :=
  rootParent = some c.vnodeTree.null ∨ tree.size ≤ 1

/-- A turn that deletes a virtual node of the server, or leaves the hash to another. -/
theorem ensures_delReplica {r : RingState} (h : Represents c r.ring tree rootParent)
    (hsafe : Safe c tree rootParent) (hmallocs : c.mallocs = r.mallocs)
    (hend : '\x00' ∈ (c.servers node).iden) :
    Ensures (delReplica platform node i) c
      (fun _ d => ∃ tree' rootParent', Represents d
          (r.del (hashOf platform (c.servers node) i) node).ring tree' rootParent' ∧
        Safe d tree' rootParent' ∧
        d.mallocs = (r.del (hashOf platform (c.servers node) i) node).mallocs ∧
        d.servers = c.servers) E := by
  rw [delReplica, ensures_bind]
  refine ensures_vnodeHash hend ?_
  generalize hashOf platform (c.servers node) i = hash
  rw [ensures_bind]
  refine (ensures_search h hash).imp ?_
  rintro found d ⟨rfl, hnone, hsome⟩
  cases found with
  | none =>
      have hring := hnone.mp rfl
      rw [RingState.del, if_neg (by rw [hring]; exact nofun)]
      exact ⟨tree, rootParent, h, hsafe, hmallocs, rfl⟩
  | some p =>
      obtain ⟨a, ha, rfl, rfl⟩ := hsome p rfl
      obtain ⟨n, hfind, hring⟩ := h.stored a ha
      obtain ⟨rbnode, hrbnode, hlabel⟩ := h.rbnode_find? ha
      dsimp only
      rw [ensures_bind]
      refine ensures_dataOf hrbnode ?_
      rw [show rbnode.item.data = a.data from congrArg Prod.snd hlabel, ensures_bind]
      have hvnode : Ensures (vnodeAt a.data) d
          (fun vnode d' => vnode = ⟨a.key, n⟩ ∧ d' = d) E := by
        simp only [vnodeAt, ensures_bind, ensures_get, hfind]
        exact ⟨rfl, rfl⟩
      refine hvnode.imp ?_
      rintro _ d' ⟨rfl, rfl⟩
      rw [ensures_ite, RingState.del]
      refine ⟨fun hown => ?_, fun hother => ?_⟩
      · have hnode : n = node := hown.2
        rw [if_pos (hring.trans (congrArg some hnode)), ensures_bind, ensures_modify]
        have hstores : Stores { d' with ivnodes := d'.ivnodes - 1 } r.ring tree rootParent :=
          ⟨h.redBlack, h.keys_nodup, h.stored, h.covered, h.nodes_owned, h.vnodes_owned⟩
        refine (ensures_delete_rbnode hstores ha).imp ?_
        rintro _ u ⟨tree', rootParent', hu, hsize, hparent, hnull, hivnodes, hservers, hcount⟩
        refine ⟨tree', rootParent', ⟨hu, ?_⟩, ?_, hcount.trans hmallocs, hservers⟩
        · rw [hivnodes, hu.redBlack.size_eq]
          change d'.ivnodes - 1 = _
          rw [h.ivnodes_eq, h.redBlack.size_eq, hsize, UInt32.ofNat_add]
          exact UInt32.add_sub_cancel _ _
        · rcases hparent with rfl | hone
          · rcases hsafe with hparent | hsmall
            · exact Or.inl (hparent.trans (congrArg some hnull.symm))
            · exact Or.inr (by omega)
          · exact Or.inr hone.le
      · rw [if_neg fun heq => hother ⟨rfl, Option.some.inj (hring.symm.trans heq)⟩]
        exact ⟨tree, rootParent, h, hsafe, hmallocs, rfl⟩

end Turns

end FastDCS.ConhashNodes
