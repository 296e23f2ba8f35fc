import FastDCS.ConhashRings

/-!
Runs of `conhash_set_node`, `conhash_add_node` and `conhash_del_node` behind
`conhash_init`, beside what the calls mean for a ring of servers.
-/

namespace FastDCS.ConhashNodes

open FastDCS.Handlers
open FastDCS.Heaps
open FastDCS.SearchTrees
open FastDCS.LinkedTrees
open FastDCS.RedBlackTrees
open FastDCS.RbTrees
open FastDCS.HashRings
open FastDCS.Strings

variable {platform : Platform} {c d : ConhashS} {E : Fault → Prop} {tree : RbTrees.Tree Nat}
  {rootParent : Option Nat} {node : Nat} {r : RingState} {servers : Nat → NodeS}

section Replicas

/-- The turns for all replicas from `i` on. -/
def forHashes (f : UInt32 → RingState → RingState) : (left : Nat) → UInt32 → RingState → RingState
  | 0, _, r => r
  | left + 1, i, r => forHashes f left (i + 1) (f i r)

theorem ensures_forReplicas {turn : UInt32 → Procedure PUnit}
    {f : UInt32 → RingState → RingState} {I : RingState → ConhashS → Prop}
    (hturn : ∀ r c i, I r c → Ensures (turn i) c (fun _ d => I (f i r) d) E) (left : Nat)
    (i : UInt32) (h : I r c) :
    Ensures (forReplicas turn left i) c (fun _ d => I (forHashes f left i r) d) E := by
  induction left generalizing i r c with
  | zero => exact h
  | succ left ih =>
      rw [forReplicas, ensures_bind]
      exact (hturn r c i h).imp fun _ d hd => ih (i + 1) hd

/-- The hash of a replica does not depend on the flag of its server. -/
def addAll (platform : Platform) (server : NodeS) (node : Nat) (r : RingState) : RingState :=
  forHashes (fun i => RingState.add platform (hashOf platform server i) node)
    server.replicas.toNat 0 r

def delAll (platform : Platform) (server : NodeS) (node : Nat) (r : RingState) : RingState :=
  forHashes (fun i => RingState.del (hashOf platform server i) node) server.replicas.toNat 0 r

theorem ensures_conhashAddReplicas (h : Represents c r.ring tree (some c.vnodeTree.null))
    (hmallocs : c.mallocs = r.mallocs) (hend : '\x00' ∈ (c.servers node).iden) :
    Ensures (conhashAddReplicas platform node) c
      (fun _ d => ∃ tree', Represents d (addAll platform (c.servers node) node r).ring tree'
          (some d.vnodeTree.null) ∧
        d.mallocs = (addAll platform (c.servers node) node r).mallocs ∧
        d.servers = c.servers) E := by
  rw [conhashAddReplicas, ensures_bind, ensures_get]
  refine ensures_forReplicas (I := fun r d => ∃ tree', Represents d r.ring tree'
      (some d.vnodeTree.null) ∧ d.mallocs = r.mallocs ∧ d.servers = c.servers) ?_ _ _
    ⟨tree, h, hmallocs, rfl⟩
  rintro r d i ⟨tree', hd, hcount, hservers⟩
  rw [← hservers] at hend ⊢
  exact ensures_addReplica hd hcount hend

theorem ensures_conhashDelReplicas (h : Represents c r.ring tree rootParent)
    (hsafe : Safe c tree rootParent) (hmallocs : c.mallocs = r.mallocs)
    (hend : '\x00' ∈ (c.servers node).iden) :
    Ensures (conhashDelReplicas platform node) c
      (fun _ d => ∃ tree' rootParent',
        Represents d (delAll platform (c.servers node) node r).ring tree' rootParent' ∧
        Safe d tree' rootParent' ∧
        d.mallocs = (delAll platform (c.servers node) node r).mallocs ∧
        d.servers = c.servers) E := by
  rw [conhashDelReplicas, ensures_bind, ensures_get]
  refine ensures_forReplicas (I := fun r d => ∃ tree' rootParent',
      Represents d r.ring tree' rootParent' ∧ Safe d tree' rootParent' ∧
      d.mallocs = r.mallocs ∧ d.servers = c.servers) ?_ _ _
    ⟨tree, rootParent, h, hsafe, hmallocs, rfl⟩
  rintro r d i ⟨tree', rootParent', hd, hsafe', hcount, hservers⟩
  rw [← hservers] at hend ⊢
  exact ensures_delReplica hd hsafe' hcount hend

end Replicas

section Calls

/-- The ring, and the servers as the caller has them. -/
structure Registry where
  state : RingState
  servers : Nat → NodeS

inductive Call where
  | setNode (node : Nat) (iden : Str) (replica : UInt32)
  | addNode (node : Nat)
  | delNode (node : Nat)

def perform (platform : Platform) : Call → Procedure Int
  | .setNode node iden replica => do
      conhashSetNode node iden replica
      return 0
  | .addNode node => conhashAddNode platform node
  | .delNode node => conhashDelNode platform node

def Registry.withFlag (node : Nat) (flag : UInt32) (registry : Registry) : Nat → NodeS :=
  Function.update registry.servers node { registry.servers node with flag := flag }

/-- What a call means, with its result. -/
def Registry.step (platform : Platform) (registry : Registry) : Call → Int × Registry
  | .setNode node iden replica =>
      let server := ⟨strncpy (registry.servers node).iden iden 63, replica, nodeFlagInit⟩
      (0, { registry with servers := Function.update registry.servers node server })
  | .addNode node =>
      let flag := (registry.servers node).flag
      if flag &&& nodeFlagInit = 0 ∨ flag &&& nodeFlagIn ≠ 0 then (-1, registry)
      else (0, ⟨addAll platform (registry.servers node) node registry.state,
        registry.withFlag node (flag ||| nodeFlagIn)⟩)
  | .delNode node =>
      let flag := (registry.servers node).flag
      if flag &&& nodeFlagInit = 0 ∨ flag &&& nodeFlagIn = 0 then (-1, registry)
      else (0, ⟨delAll platform (registry.servers node) node registry.state,
        registry.withFlag node (flag &&& ~~~nodeFlagIn)⟩)

/-- The memory has the ring and the servers. -/
structure Models (c : ConhashS) (registry : Registry) (tree : RbTrees.Tree Nat)
    (rootParent : Option Nat) : Prop where
  represents : Represents c registry.state.ring tree rootParent
  mallocs_eq : c.mallocs = registry.state.mallocs
  servers_eq : c.servers = registry.servers

/-- What a call needs: the name of the server ends, and a server comes only while the
root is known to hang from the sentinel. -/
def Ready (c : ConhashS) : Call → Prop
  | .setNode .. => True
  | .addNode node => '\x00' ∈ (c.servers node).iden ∧ RootKnown c.vnodeTree
  | .delNode node => '\x00' ∈ (c.servers node).iden

theorem Represents.rooted (h : Represents c r.ring tree rootParent)
    (hknown : RootKnown c.vnodeTree) :
    Represents c r.ring tree (some c.vnodeTree.null) where
  redBlack := ⟨h.redBlack.stands.of_rootKnown hknown, h.redBlack.balanced, h.redBlack.sorted,
    h.redBlack.sentinel, h.redBlack.size_eq⟩
  keys_nodup := h.keys_nodup
  stored := h.stored
  covered := h.covered
  nodes_owned := h.nodes_owned
  vnodes_owned := h.vnodes_owned
  ivnodes_eq := h.ivnodes_eq

/-- One call does in the memory what it means. -/
theorem Models.ensures_perform {registry : Registry} (h : Models c registry tree rootParent)
    (hsafe : Safe c tree rootParent) {call : Call} (hready : Ready c call) :
    Ensures (perform platform call) c
      (fun result d => result = (registry.step platform call).1 ∧
        (∃ tree' rootParent', Models d (registry.step platform call).2 tree' rootParent' ∧
          Safe d tree' rootParent') ∧
        (RootKnown c.vnodeTree → RootKnown d.vnodeTree ∨ ∃ node, call = .delNode node)) E := by
  obtain ⟨hrep, hmallocs, hservers⟩ := h
  cases call with
  | setNode node iden replica =>
      refine ⟨rfl, ⟨tree, _, ⟨hrep.served _, hmallocs, ?_⟩, hsafe⟩, Or.inl⟩
      dsimp only [Registry.step]
      rw [hservers]
  | addNode node =>
      obtain ⟨hend, hknown⟩ := hready
      rw [hservers] at hend
      rw [perform, conhashAddNode, ensures_bind, ensures_get, hservers, Registry.step, ensures_ite]
      refine ⟨fun hrefused => ?_, fun hfree => ?_⟩
      · rw [if_pos hrefused]
        exact ⟨rfl, ⟨tree, _, ⟨hrep, hmallocs, hservers⟩, hsafe⟩, Or.inl⟩
      · rw [if_neg hfree, ensures_bind, setFlag, ensures_modify, hservers, ensures_bind]
        have hflagged := (hrep.rooted hknown).served
          (registry.withFlag node ((registry.servers node).flag ||| nodeFlagIn))
        refine (ensures_conhashAddReplicas hflagged hmallocs ?_).imp ?_
        · dsimp only [Registry.withFlag]
          rw [Function.update_self]
          exact hend
        · rintro _ d ⟨tree', hd, hcount, hsame⟩
          dsimp only [Registry.withFlag] at hd hcount hsame
          rw [Function.update_self] at hd hcount
          exact ⟨rfl, ⟨tree', _, ⟨hd, hcount, hsame⟩, Or.inl rfl⟩,
            fun _ => Or.inl (hd.redBlack.stands.rootKnown)⟩
  | delNode node =>
      change '\x00' ∈ (c.servers node).iden at hready
      rw [hservers] at hready
      rw [perform, conhashDelNode, ensures_bind, ensures_get, hservers, Registry.step, ensures_ite]
      refine ⟨fun hrefused => ?_, fun hin => ?_⟩
      · rw [if_pos hrefused]
        exact ⟨rfl, ⟨tree, _, ⟨hrep, hmallocs, hservers⟩, hsafe⟩, Or.inl⟩
      · rw [if_neg hin, ensures_bind, setFlag, ensures_modify, hservers, ensures_bind]
        have hflagged := hrep.served
          (registry.withFlag node ((registry.servers node).flag &&& ~~~nodeFlagIn))
        refine (ensures_conhashDelReplicas hflagged hsafe hmallocs ?_).imp ?_
        · dsimp only [Registry.withFlag]
          rw [Function.update_self]
          exact hready
        · rintro _ d ⟨tree', rootParent', hd, hsafe', hcount, hsame⟩
          dsimp only [Registry.withFlag] at hd hcount hsame
          rw [Function.update_self] at hd hcount
          exact ⟨rfl, ⟨tree', rootParent', ⟨hd, hcount, hsame⟩, hsafe'⟩,
            fun _ => Or.inr ⟨node, rfl⟩⟩

/-- The memory before `conhash_init`, with the servers of the caller. -/
def blank (servers : Nat → NodeS) : ConhashS :=
  ⟨⟨Heap.empty, 0, 0, 0⟩, 0, Heap.empty, servers, 0⟩

/-- The states that calls reach behind `conhash_init`. -/
inductive Reached (platform : Platform) (servers : Nat → NodeS) : List Call → ConhashS → Prop where
  | init {c : ConhashS} : (conhashInit platform).run (blank servers) = .ok (true, c) →
      Reached platform servers [] c
  | call {calls : List Call} {call : Call} {result : Int} {c d : ConhashS} :
      Reached platform servers calls c → Ready c call →
      (perform platform call).run c = .ok (result, d) → Reached platform servers (calls ++ [call]) d

/-- What calls mean behind `conhash_init`, which has called `malloc` once. -/
def registered (platform : Platform) (servers : Nat → NodeS) (calls : List Call) : Registry :=
  calls.foldl (fun registry call => (registry.step platform call).2)
    ⟨⟨fun _ => none, 1⟩, servers⟩

theorem registered_append {calls : List Call} {call : Call} :
    registered platform servers (calls ++ [call]) =
      ((registered platform servers calls).step platform call).2 := by
  rw [registered, List.foldl_append]
  rfl

theorem ensures_conhashInit (platform : Platform) (servers : Nat → NodeS) :
    Ensures (conhashInit platform) (blank servers)
      (fun result c => result = !platform.mallocFails 0 ∧
        (result = true → Models c ⟨⟨fun _ => none, 1⟩, servers⟩ .leaf (some c.vnodeTree.null)))
      E := by
  rw [conhashInit, ensures_bind, ensures_malloc]
  cases hfails : platform.mallocFails (blank servers).mallocs with
  | true => exact ⟨by rw [show platform.mallocFails 0 = true from hfails]; rfl, nofun⟩
  | false =>
      rw [Bool.not_false, if_pos rfl, ensures_bind, ensures_modify, ensures_bind, ensures_onTree]
      set memory : UtilRbtree Nat :=
        ⟨Heap.empty.alloc ⟨⟨0, .red, 0⟩, none, none, none⟩, 0, 0, 0⟩ with hmemory
      have hlive : (memory.nodes.find? memory.null).isSome := rfl
      refine (ensures_utilRbtreeInit memory).mono (fun _ t ht => ?_) fun _ hnone => ?_
      · refine ⟨by rw [show platform.mallocFails 0 = false from hfails]; rfl, fun _ => ?_⟩
        have hnull : t.null = memory.null := ht.redBlack.stands.null_eq
        have howns : t.nodes.Owns [t.null] := by
          rw [hnull]
          refine Heap.Owns.of_isSome_eq (h := memory.nodes) ?_ fun q =>
            isSome_of_labels (ht.labels q)
          exact Heap.owns_empty.alloc _
        refine ⟨⟨⟨?_, List.nodup_nil, nofun, nofun, howns, Heap.owns_empty⟩, ?_⟩, rfl, rfl⟩
        · change RedBlack t.null t .leaf (some t.null)
          rw [hnull]
          exact ht.redBlack
        · exact ht.redBlack.size_eq.symm
      · rw [hnone] at hlive
        cases hlive

/-- In every state of a run the memory has the ring that the calls mean. -/
theorem Reached.models {calls : List Call} (h : Reached platform servers calls c) :
    ∃ tree rootParent, Models c (registered platform servers calls) tree rootParent ∧
      Safe c tree rootParent := by
  induction h with
  | init hrun =>
      obtain ⟨_, hmodels⟩ :=
        (ensures_conhashInit (E := fun _ => True) platform servers).of_run_eq_ok hrun
      exact ⟨_, _, hmodels rfl, Or.inl rfl⟩
  | @call calls call result c d _ hready hrun ih =>
      obtain ⟨tree, rootParent, hmodels, hsafe⟩ := ih
      obtain ⟨_, hd, _⟩ :=
        (hmodels.ensures_perform (E := fun _ => True) hsafe hready).of_run_eq_ok hrun
      rw [registered_append]
      exact hd

theorem Models.rootKnown {registry : Registry} (h : Models c registry tree rootParent)
    (hsafe : Safe c tree rootParent) : RootKnown c.vnodeTree ∨ c.ivnodes = 1 := by
  have hstands := h.represents.redBlack.stands
  rcases hsafe with rfl | hsmall
  · exact Or.inl hstands.rootKnown
  · rw [h.represents.ivnodes_eq, h.represents.redBlack.size_eq]
    rcases Nat.le_one_iff_eq_zero_or_eq_one.mp hsmall with hzero | hone
    · cases tree with
      | leaf => exact Or.inl (Or.inl hstands.root_eq)
      | node left e right => exact absurd hzero nofun
    · rw [hone]
      exact Or.inr rfl

theorem Reached.exists_call {calls : List Call} (h : Reached platform servers calls c) (call : Call)
    (hready : Ready c call) :
    ∃ d, (perform platform call).run c =
        .ok (((registered platform servers calls).step platform call).1, d) ∧
      (RootKnown c.vnodeTree → RootKnown d.vnodeTree ∨ ∃ node, call = .delNode node) := by
  obtain ⟨tree, rootParent, hmodels, hsafe⟩ := h.models
  obtain ⟨⟨_, d⟩, hrun, rfl, _, hknown⟩ := (hmodels.ensures_perform hsafe hready).returns
  exact ⟨d, hrun, hknown⟩

theorem exists_init (platform : Platform) (hmalloc : platform.mallocFails 0 = false)
    (servers : Nat → NodeS) :
    ∃ c, Reached platform servers [] c ∧ RootKnown c.vnodeTree := by
  obtain ⟨⟨result, c⟩, hrun, hresult, hmodels⟩ := (ensures_conhashInit platform servers).returns
  rw [hmalloc] at hresult
  obtain rfl : result = true := hresult
  exact ⟨c, .init hrun, (hmodels rfl).represents.redBlack.stands.rootKnown⟩

def unnamed (_ : Nat) : NodeS := ⟨List.replicate 64 '\x00', 0, 0⟩

end Calls

section Ending

variable {ring : Ring}

end Ending

section Results

end Results

end FastDCS.ConhashNodes
