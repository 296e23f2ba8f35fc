import Mathlib.Data.Finset.Sort
import FastDCS.ConhashLookups
import FastDCS.ConsistentHash

/-!
The ring of masters that a worker keeps: what `InitialTracker` and `UpdateMasterConhash`
call, and what `conhash_lookup` finds for the worker in every state of its runs.
-/

namespace FastDCS.MasterRings

open FastDCS.ConhashNodes
open FastDCS.ConsistentHash
open FastDCS.HashRings
open FastDCS.RbTrees
open FastDCS.Strings
open FastDCS.Tracker

variable {platform : Platform} {ring : Ring} {hash key : Int} {node n m : Nat} {r : RingState}
  {server : NodeS} {b : Bool} {nodes : Finset Nat} {masters : List Str}

section Replicas

/-- The hashes of the replicas from `start` on. -/
def hashesFrom (f : UInt32 → Int) (start left : Nat) : List Int :=
  (List.range' start left).map fun i => f (.ofNat i)

theorem hashesFrom_succ (f : UInt32 → Int) (start left : Nat) :
    hashesFrom f start (left + 1) = f (.ofNat start) :: hashesFrom f (start + 1) left := by
  rw [hashesFrom, List.range'_succ, List.map_cons]
  rfl

theorem ofNat_succ (start : Nat) : UInt32.ofNat start + 1 = UInt32.ofNat (start + 1) := by
  rw [UInt32.ofNat_add]
  rfl

theorem ring_add (hmalloc : ∀ i, platform.mallocFails i = false) {h : Int} :
    (r.add platform h node).ring hash = some m ↔
      r.ring hash = some m ∨ r.ring hash = none ∧ m = node ∧ hash = h := by
  rw [RingState.add]
  by_cases htaken : (r.ring h).isSome
  · rw [if_pos htaken]
    refine ⟨Or.inl, fun hor => hor.elim id ?_⟩
    rintro ⟨hnone, _, rfl⟩
    rw [hnone] at htaken
    cases htaken
  · rw [if_neg htaken, hmalloc, hmalloc, if_neg Bool.false_ne_true, if_neg Bool.false_ne_true]
    rw [Option.not_isSome_iff_eq_none] at htaken
    dsimp only
    rw [Function.update_apply]
    split_ifs with hsame
    · rw [hsame, htaken, Option.some_inj]
      have hnot : ¬none = some m := (Option.some_ne_none m).symm
      exact ⟨fun heq => Or.inr ⟨rfl, heq.symm, rfl⟩, fun hor => (hor.resolve_left hnot).2.1.symm⟩
    · exact ⟨Or.inl, fun hor => hor.resolve_right fun h => hsame h.2.2⟩

theorem ring_add_eq_none_iff (hmalloc : ∀ i, platform.mallocFails i = false) {h : Int} :
    (r.add platform h node).ring hash = none ↔ r.ring hash = none ∧ hash ≠ h := by
  constructor
  · intro hnone
    have hfree : r.ring hash = none := by
      rw [Option.eq_none_iff_forall_ne_some]
      intro n hn
      rw [(ring_add hmalloc).mpr (Or.inl hn)] at hnone
      cases hnone
    refine ⟨hfree, fun hsame => ?_⟩
    rw [(ring_add hmalloc).mpr (Or.inr ⟨hfree, rfl, hsame⟩)] at hnone
    cases hnone
  · rintro ⟨hfree, hne⟩
    rw [Option.eq_none_iff_forall_ne_some]
    intro n hn
    rcases (ring_add hmalloc).mp hn with hold | ⟨_, _, hsame⟩
    · rw [hfree] at hold
      cases hold
    · exact hne hsame

theorem ring_del {h : Int} :
    (r.del h node).ring hash = some m ↔ r.ring hash = some m ∧ ¬(m = node ∧ hash = h) := by
  rw [RingState.del]
  by_cases hown : r.ring h = some node
  · rw [if_pos hown]
    dsimp only
    rw [Function.update_apply]
    split_ifs with hsame
    · rw [hsame, hown, Option.some_inj]
      exact ⟨False.elim, fun hand => absurd ⟨hand.1.symm, rfl⟩ hand.2⟩
    · exact ⟨fun heq => ⟨heq, fun hand => hsame hand.2⟩, And.left⟩
  · rw [if_neg hown]
    refine ⟨fun heq => ⟨heq, ?_⟩, And.left⟩
    rintro ⟨rfl, rfl⟩
    exact hown heq

/-- With memory for all, every hash that is free comes to the server. -/
theorem forHashes_add (hmalloc : ∀ i, platform.mallocFails i = false) (f : UInt32 → Int)
    (left start : Nat) :
    (forHashes (fun i => RingState.add platform (f i) node) left (.ofNat start) r).ring hash =
        some m ↔
      r.ring hash = some m ∨
        r.ring hash = none ∧ m = node ∧ hash ∈ hashesFrom f start left := by
  induction left generalizing start r with
  | zero => exact ⟨Or.inl, fun hor => hor.resolve_right fun h => absurd h.2.2 List.not_mem_nil⟩
  | succ left ih =>
      rw [forHashes, ofNat_succ, ih, hashesFrom_succ, List.mem_cons, ring_add hmalloc,
        ring_add_eq_none_iff hmalloc]
      tauto

/-- The server's own hashes go. -/
theorem forHashes_del (f : UInt32 → Int) (left start : Nat) :
    (forHashes (fun i => RingState.del (f i) node) left (.ofNat start) r).ring hash = some m ↔
      r.ring hash = some m ∧ ¬(m = node ∧ hash ∈ hashesFrom f start left) := by
  induction left generalizing start r with
  | zero => exact ⟨fun heq => ⟨heq, fun h => absurd h.2 List.not_mem_nil⟩, And.left⟩
  | succ left ih =>
      rw [forHashes, ofNat_succ, ih, hashesFrom_succ, List.mem_cons, ring_del]
      tauto

end Replicas

section Masters

/-- The hashes of the virtual nodes of a master, which are 256. -/
def masterHashes (platform : Platform) (masters : List Str) (n : Nat) : List Int :=
  hashesFrom (fun i => platform.hashfunc (conhashNode2string (masters.getD n []) i)) 0 256

/-- The loop of `InitialTracker`. -/
def initialCalls (masters : List Str) : List Call :=
  masters.zipIdx.flatMap fun entry => [.setNode entry.2 entry.1 256, .addNode entry.2]

/-- The loop of `UpdateMasterConhash`. -/
def updateCall (node : Node) (entry : Str × Nat) : Call :=
  if live node entry.1 then .addNode entry.2 else .delNode entry.2

def updateCalls (node : Node) : List Call := (masterAddr node).zipIdx.map (updateCall node)

/-- Names that fit, and hashes that tell the masters apart; no master has only one. -/
structure Group (platform : Platform) (masters : List Str) : Prop where
  named : ∀ address ∈ masters, address.length < 63 ∧ '\x00' ∉ address
  few : masters.length < 2 ^ 24
  disjoint : ∀ n < masters.length, ∀ m < masters.length,
    ∀ hash ∈ masterHashes platform masters n, hash ∈ masterHashes platform masters m → n = m
  two : ∀ n < masters.length, ∃ h ∈ masterHashes platform masters n,
    ∃ h' ∈ masterHashes platform masters n, h ≠ h'

/-- A server that is set to an address, in the ring or not. -/
structure SetTo (address : Str) (inRing : Bool) (server : NodeS) : Prop where
  ends : '\x00' ∈ server.iden
  iden : server.iden.takeWhile (· ≠ '\x00') = address
  replicas : server.replicas = 256
  flag : server.flag = if inRing then nodeFlagInit ||| nodeFlagIn else nodeFlagInit

/-- The first masters are set, and these ones are in the ring. -/
structure Settled (platform : Platform) (masters : List Str) (count : Nat) (nodes : Finset Nat)
    (registry : Registry) : Prop where
  lt_count : ∀ n ∈ nodes, n < count
  setTo : ∀ n < count, SetTo (masters.getD n []) (decide (n ∈ nodes)) (registry.servers n)
  ring : ∀ hash n, registry.state.ring hash = some n ↔
    n ∈ nodes ∧ hash ∈ masterHashes platform masters n

theorem strncpy_short (dest : List Char) {address : Str} (hshort : address.length < 63)
    (hend : '\x00' ∉ address) :
    '\x00' ∈ strncpy dest address 63 ∧
      (strncpy dest address 63).takeWhile (· ≠ '\x00') = address := by
  have hwhole : address.takeWhile (· ≠ '\x00') = address :=
    List.takeWhile_eq_self_iff.mpr fun ch hch => by
      rw [decide_eq_true_iff]
      rintro rfl
      exact hend hch
  obtain ⟨pad, hpad⟩ : ∃ pad, 63 - address.length = pad + 1 := ⟨62 - address.length, by omega⟩
  rw [strncpy, hwhole, List.take_of_length_le hshort.le, hpad, List.replicate_succ,
    List.append_assoc]
  refine ⟨List.mem_append_right _ List.mem_cons_self, ?_⟩
  rw [List.takeWhile_append, hwhole, if_pos rfl]
  simp

variable {count : Nat} {registry : Registry}

theorem SetTo.hashes_eq (h : SetTo (masters.getD n []) b server) :
    hashesFrom (hashOf platform server) 0 server.replicas.toNat =
      masterHashes platform masters n := by
  rw [h.replicas, masterHashes, ← h.iden]
  rfl

namespace Settled

theorem setNode (h : Settled platform masters count nodes registry)
    (hgroup : Group platform masters) {address : Str} (haddress : masters[count]? = some address) :
    Settled platform masters (count + 1) nodes
      (registry.step platform (.setNode count address 256)).2 := by
  refine ⟨fun n hn => (h.lt_count n hn).trans (Nat.lt_succ_self _), fun n hn => ?_, h.ring⟩
  dsimp only [Registry.step]
  rw [Function.update_apply]
  split_ifs with hsame
  · obtain ⟨hshort, hend⟩ := hgroup.named address (List.mem_of_getElem? haddress)
    obtain ⟨hends, hiden⟩ := strncpy_short (registry.servers count).iden hshort hend
    have hfresh : n ∉ nodes := fun hmem => by
      have hlt := h.lt_count n hmem
      omega
    rw [decide_eq_false hfresh, hsame, List.getD_eq_getElem?_getD, haddress]
    exact ⟨hends, hiden, rfl, rfl⟩
  · exact h.setTo n (by omega)

theorem addNode (h : Settled platform masters count nodes registry)
    (hgroup : Group platform masters) (hmalloc : ∀ i, platform.mallocFails i = false)
    (hcount : count ≤ masters.length) (hn : n < count) :
    Settled platform masters count (insert n nodes) (registry.step platform (.addNode n)).2 := by
  obtain ⟨hends, hiden, hreplicas, hflag⟩ := h.setTo n hn
  by_cases hmem : n ∈ nodes
  · rw [Finset.insert_eq_of_mem hmem]
    rw [decide_eq_true hmem] at hflag
    rw [Registry.step, if_pos (Or.inr (by rw [hflag]; decide))]
    exact h
  · rw [decide_eq_false hmem] at hflag
    rw [Registry.step, if_neg (by rw [hflag]; decide)]
    refine ⟨fun m hm => ?_, fun m hm => ?_, fun hash m => ?_⟩
    · rcases Finset.mem_insert.mp hm with rfl | hm
      · exact hn
      · exact h.lt_count m hm
    · dsimp only [Registry.withFlag]
      rw [Function.update_apply]
      split_ifs with hsame
      · rw [hsame, decide_eq_true (Finset.mem_insert_self _ _)]
        exact ⟨hends, hiden, hreplicas, by rw [hflag]; rfl⟩
      · have hold := h.setTo m hm
        rwa [show decide (m ∈ nodes) = decide (m ∈ insert n nodes) by simp [hsame]] at hold
    · have hfree (hhash : hash ∈ masterHashes platform masters n) :
          registry.state.ring hash = none := by
        rw [Option.eq_none_iff_forall_ne_some]
        intro k hk
        obtain ⟨hkmem, hkhash⟩ := (h.ring hash k).mp hk
        have hlt := h.lt_count k hkmem
        have hsame := hgroup.disjoint k (by omega) n (by omega) hash hkhash hhash
        exact hmem (hsame ▸ hkmem)
      dsimp only
      rw [addAll, show (0 : UInt32) = .ofNat 0 from rfl, forHashes_add hmalloc,
        (h.setTo n hn).hashes_eq, h.ring, Finset.mem_insert]
      constructor
      · rintro (⟨hm, hhash⟩ | ⟨_, rfl, hhash⟩)
        · exact ⟨Or.inr hm, hhash⟩
        · exact ⟨Or.inl rfl, hhash⟩
      · rintro ⟨rfl | hm, hhash⟩
        · exact Or.inr ⟨hfree hhash, rfl, hhash⟩
        · exact Or.inl ⟨hm, hhash⟩

theorem delNode (h : Settled platform masters count nodes registry) (hn : n < count) :
    Settled platform masters count (nodes.erase n) (registry.step platform (.delNode n)).2 := by
  obtain ⟨hends, hiden, hreplicas, hflag⟩ := h.setTo n hn
  by_cases hmem : n ∈ nodes
  · rw [decide_eq_true hmem] at hflag
    rw [Registry.step, if_neg (by rw [hflag]; decide)]
    refine ⟨fun m hm => h.lt_count m (Finset.mem_of_mem_erase hm), fun m hm => ?_,
      fun hash m => ?_⟩
    · dsimp only [Registry.withFlag]
      rw [Function.update_apply]
      split_ifs with hsame
      · rw [hsame, decide_eq_false (Finset.notMem_erase _ _)]
        exact ⟨hends, hiden, hreplicas, by rw [hflag]; rfl⟩
      · have hold := h.setTo m hm
        rwa [show decide (m ∈ nodes) = decide (m ∈ nodes.erase n) by simp [hsame]] at hold
    · dsimp only
      rw [delAll, show (0 : UInt32) = .ofNat 0 from rfl, forHashes_del,
        (h.setTo n hn).hashes_eq, h.ring, Finset.mem_erase]
      constructor
      · rintro ⟨⟨hm, hhash⟩, hnot⟩
        refine ⟨⟨?_, hm⟩, hhash⟩
        rintro rfl
        exact hnot ⟨rfl, hhash⟩
      · rintro ⟨⟨hne, hm⟩, hhash⟩
        exact ⟨⟨hm, hhash⟩, fun hboth => hne hboth.1⟩
  · rw [Finset.erase_eq_of_notMem hmem]
    rw [decide_eq_false hmem] at hflag
    rw [Registry.step, if_pos (Or.inr (by rw [hflag]; decide))]
    exact h

end Settled

end Masters

section Calls

variable {servers : Nat → NodeS} {calls : List Call} {c : ConhashS} {count : Nat}

/-- A run of calls behind which the masters are settled. -/
structure Keeps (platform : Platform) (masters : List Str) (servers : Nat → NodeS)
    (calls : List Call) (count : Nat) (nodes : Finset Nat) (c : ConhashS) : Prop where
  reached : Reached platform servers calls c
  settled : Settled platform masters count nodes (registered platform servers calls)

namespace Keeps

theorem servers_eq (h : Keeps platform masters servers calls count nodes c) :
    c.servers = (registered platform servers calls).servers := by
  obtain ⟨_, _, hmodels, _⟩ := h.reached.models
  exact hmodels.servers_eq

/-- No master has a single hash, so there is never a single node in the tree. -/
theorem rootKnown (h : Keeps platform masters servers calls count nodes c)
    (hgroup : Group platform masters) (hcount : count ≤ masters.length) :
    RootKnown c.vnodeTree := by
  obtain ⟨tree, rootParent, hmodels, hsafe⟩ := h.reached.models
  have hrep := hmodels.represents
  rcases hsafe with rfl | hsmall
  · exact hrep.redBlack.stands.rootKnown
  · cases hplains : plains tree with
    | nil =>
        have hleaf : tree = .leaf := by
          cases tree with
          | leaf => rfl
          | node left e right =>
              rw [plains_node] at hplains
              simp at hplains
        rw [hleaf] at hrep
        exact Or.inl (hrep.redBlack.stands.root_eq)
    | cons a rest =>
        have ha : a ∈ plains tree := hplains ▸ List.mem_cons_self
        obtain ⟨n, _, hring⟩ := hrep.stored a ha
        obtain ⟨hn, _⟩ := (h.settled.ring a.key n).mp hring
        have hlength := length_plains tree
        rw [hplains, List.length_cons] at hlength
        obtain rfl : rest = [] := List.length_eq_zero_iff.mp (by omega)
        have honly (hash : Int) (hhash : hash ∈ masterHashes platform masters n) :
            hash = a.key := by
          obtain ⟨b, hb, rfl⟩ := hrep.covered hash n ((h.settled.ring hash n).mpr ⟨hn, hhash⟩)
          rw [hplains, List.mem_singleton] at hb
          rw [hb]
        have hlt := h.settled.lt_count n hn
        obtain ⟨k, hk, k', hk', hne⟩ := hgroup.two n (by omega)
        exact absurd ((honly k hk).trans (honly k' hk').symm) hne

theorem exists_call (h : Keeps platform masters servers calls count nodes c) (call : Call)
    {count' : Nat} {nodes' : Finset Nat} (hready : Ready c call)
    (hsettled : Settled platform masters count' nodes'
      ((registered platform servers calls).step platform call).2) :
    ∃ d, Keeps platform masters servers (calls ++ [call]) count' nodes' d := by
  obtain ⟨d, hrun, _⟩ := h.reached.exists_call _ hready
  exact ⟨d, h.reached.call hready hrun, registered_append ▸ hsettled⟩

theorem exists_addNode (h : Keeps platform masters servers calls count nodes c)
    (hgroup : Group platform masters) (hmalloc : ∀ i, platform.mallocFails i = false)
    (hcount : count ≤ masters.length) (hn : n < count) :
    ∃ d, Keeps platform masters servers (calls ++ [.addNode n]) count (insert n nodes) d := by
  refine h.exists_call _ ⟨?_, h.rootKnown hgroup hcount⟩
    (h.settled.addNode hgroup hmalloc hcount hn)
  rw [h.servers_eq]
  exact (h.settled.setTo n hn).ends

theorem exists_delNode (h : Keeps platform masters servers calls count nodes c) (hn : n < count) :
    ∃ d, Keeps platform masters servers (calls ++ [.delNode n]) count (nodes.erase n) d := by
  refine h.exists_call _ ?_ (h.settled.delNode hn)
  change '\x00' ∈ (c.servers n).iden
  rw [h.servers_eq]
  exact (h.settled.setTo n hn).ends

/-- The loop of `UpdateMasterConhash`. -/
theorem exists_updates (h : Keeps platform masters servers calls count nodes c)
    (hgroup : Group platform masters) (hmalloc : ∀ i, platform.mallocFails i = false)
    (hcount : count ≤ masters.length) (node : Node) (entries : List (Str × Nat))
    (hentries : ∀ entry ∈ entries, entry.2 < count) :
    ∃ d, Keeps platform masters servers (calls ++ entries.map (updateCall node)) count
      (entries.foldl (fun ring entry =>
        if live node entry.1 then insert entry.2 ring else ring.erase entry.2) nodes) d := by
  induction entries generalizing calls nodes c with
  | nil => exact ⟨c, by simpa using h⟩
  | cons entry entries ih =>
      have hn := hentries entry List.mem_cons_self
      rw [List.map_cons, List.foldl_cons, List.append_cons, updateCall]
      have hrest := fun other hother => hentries other (List.mem_cons_of_mem entry hother)
      split_ifs with hlive
      · obtain ⟨d, hd⟩ := h.exists_addNode hgroup hmalloc hcount hn
        exact ih hd hrest
      · obtain ⟨d, hd⟩ := h.exists_delNode hn
        exact ih hd hrest

end Keeps

/-- The loop of `InitialTracker`. -/
theorem exists_initialCalls (hgroup : Group platform masters)
    (hmalloc : ∀ i, platform.mallocFails i = false) (servers : Nat → NodeS)
    (hcount : count ≤ masters.length) :
    ∃ c, Keeps platform masters servers (initialCalls (masters.take count)) count
      (Finset.range count) c := by
  induction count with
  | zero =>
      obtain ⟨c, hc, _⟩ := exists_init platform (hmalloc 0) servers
      refine ⟨c, hc, ⟨nofun, nofun, fun hash n => ?_⟩⟩
      exact iff_of_false nofun fun hand => absurd hand.1 (Finset.notMem_empty n)
  | succ count ih =>
      obtain ⟨c, hc⟩ := ih (by omega)
      have hget : masters[count]? = some masters[count] := List.getElem?_eq_getElem hcount
      obtain ⟨d, hd⟩ := hc.exists_call (.setNode count masters[count] 256) trivial
        (hc.settled.setNode hgroup hget)
      obtain ⟨e, he⟩ := hd.exists_addNode hgroup hmalloc hcount (Nat.lt_succ_self count)
      refine ⟨e, ?_⟩
      have hcalls : initialCalls (masters.take (count + 1)) =
          initialCalls (masters.take count) ++ [.setNode count masters[count] 256] ++
            [.addNode count] := by
        rw [initialCalls, List.take_succ_eq_append_getElem hcount, List.zipIdx_append,
          List.flatMap_append, List.length_take, Nat.min_eq_left (by omega), Nat.zero_add]
        simp [initialCalls]
      rw [hcalls, Finset.range_add_one]
      exact he

end Calls

section Lookups

/-- The hashes of masters, in ascending order. -/
def points (platform : Platform) (masters : List Str) (nodes : Finset Nat) : List (Int × Nat) :=
  ((nodes.sort (· ≤ ·)).flatMap fun n =>
    (masterHashes platform masters n).map fun hash => (hash, n)).mergeSort
      fun a b => decide (a.1 ≤ b.1)

theorem mem_points : (hash, n) ∈ points platform masters nodes ↔
    n ∈ nodes ∧ hash ∈ masterHashes platform masters n := by
  rw [points, List.mem_mergeSort, List.mem_flatMap]
  constructor
  · rintro ⟨m, hm, hpoint⟩
    obtain ⟨h, hh, heq⟩ := List.mem_map.mp hpoint
    cases heq
    exact ⟨(Finset.mem_sort _).mp hm, hh⟩
  · rintro ⟨hn, hhash⟩
    exact ⟨n, (Finset.mem_sort _).mpr hn, List.mem_map_of_mem hhash⟩

theorem points_sorted : (points platform masters nodes).Pairwise fun a b => a.1 ≤ b.1 := by
  refine (List.pairwise_mergeSort (fun a b c hab hbc => ?_) (fun a b => ?_) _).imp
    of_decide_eq_true
  · exact decide_eq_true ((of_decide_eq_true hab).trans (of_decide_eq_true hbc))
  · rw [Bool.or_eq_true, decide_eq_true_iff, decide_eq_true_iff]
    exact le_total a.1 b.1

theorem points_eq_nil_iff : points platform masters nodes = [] ↔ nodes = ∅ := by
  constructor
  · intro hnil
    refine Finset.eq_empty_of_forall_notMem fun n hn => ?_
    have hmem : (_, n) ∈ points platform masters nodes :=
      mem_points.mpr ⟨hn, List.mem_cons_self⟩
    rw [hnil] at hmem
    cases hmem
  · rintro rfl
    exact List.eq_nil_iff_forall_not_mem.mpr fun a ha =>
      absurd (mem_points.mp ha).1 (Finset.notMem_empty _)

/-- `conhash_lookup` on the ring that has the masters' virtual nodes, as the worker sees
it. -/
def masterConhash (platform : Platform) (masters : List Str) : Conhash where
  lookup nodes object :=
    (HashRings.lookup Prod.fst (platform.hashfunc object)
      (points platform masters nodes)).map Prod.snd
  lookup_eq_none_iff nodes object := by
    rw [Option.map_eq_none_iff, lookup_eq_none_iff, points_eq_nil_iff]
  lookup_mem nodes object index h := by
    obtain ⟨a, ha, rfl⟩ := Option.map_eq_some_iff.mp h
    exact (mem_points.mp (owner_of_lookup points_sorted ha).mem).1

/-- On the ring of settled masters this is what a lookup answers. -/
theorem answers_masterConhash
    (hring : ∀ hash n, ring hash = some n ↔ n ∈ nodes ∧ hash ∈ masterHashes platform masters n)
    (object : Str) :
    Answers ring (platform.hashfunc object)
      ((masterConhash platform masters).lookup nodes object) := by
  cases hlookup : (masterConhash platform masters).lookup nodes object with
  | none =>
      intro hash
      rw [(masterConhash platform masters).lookup_eq_none_iff] at hlookup
      rw [Option.eq_none_iff_forall_ne_some]
      intro n hn
      have hmem := ((hring hash n).mp hn).1
      rw [hlookup] at hmem
      exact absurd hmem (Finset.notMem_empty n)
  | some n =>
      obtain ⟨a, ha, rfl⟩ := Option.map_eq_some_iff.mp hlookup
      have howner := owner_of_lookup points_sorted ha
      have hserves : Owner id (Prod.fst '' { b | b ∈ points platform masters nodes })
          (platform.hashfunc object) a.1 := howner.image fun _ _ => rfl
      have hhashes : Prod.fst '' { b | b ∈ points platform masters nodes } =
          { hash | (ring hash).isSome } := by
        ext hash
        constructor
        · rintro ⟨⟨_, m⟩, hb, rfl⟩
          exact Option.isSome_iff_exists.mpr ⟨m, (hring _ m).mpr (mem_points.mp hb)⟩
        · intro hsome
          obtain ⟨m, hm⟩ := Option.isSome_iff_exists.mp hsome
          exact ⟨(hash, m), mem_points.mpr ((hring hash m).mp hm), rfl⟩
      rw [hhashes] at hserves
      exact ⟨a.1, hserves, (hring _ _).mpr (mem_points.mp howner.mem)⟩

theorem Settled.few {count : Nat} {registry : Registry}
    (h : Settled platform masters count nodes registry) (hgroup : Group platform masters)
    (hcount : count ≤ masters.length) : Few registry.state.ring := by
  refine ⟨(List.range count).flatMap (masterHashes platform masters), ?_, fun hash hsome => ?_⟩
  · have hlength : ((List.range count).flatMap (masterHashes platform masters)).length =
        count * 256 := by
      rw [List.length_flatMap]
      simp [masterHashes, hashesFrom]
    have hfew := hgroup.few
    omega
  · obtain ⟨n, hn⟩ := Option.isSome_iff_exists.mp hsome
    obtain ⟨hmem, hhash⟩ := (h.ring hash n).mp hn
    exact List.mem_flatMap.mpr ⟨n, List.mem_range.mpr (h.lt_count n hmem), hhash⟩

end Lookups

section Workers

open FastDCS.Runs

variable {settings : Settings} {workerSockaddr : Str} {s s' : State} {as : List Action}
  {servers : Nat → NodeS}

/-- The calls of `UpdateMasterConhash` in a step of the worker. -/
def stepCalls (s : State) : Action → List Call
  | .socketClose _ guestAddr =>
      if live s.node guestAddr ∧ s.node.primarySockaddr ≠ guestAddr then
        updateCalls { s.node with masterSockets := s.node.masterSockets.erase guestAddr }
      else []
  | _ => []

def runCalls : State → List Action → List Call
  | _, [] => []
  | s, a :: as =>
      stepCalls s a ++
        match step s a with
        | some s' => runCalls s' as
        | none => []

theorem masterAddr_step (hinv : Inv s) {a : Action} (h : step s a = some s') :
    masterAddr s'.node = masterAddr s.node := by
  cases a with
  | connectMaster network address =>
      obtain ⟨node', hafter, rfl⟩ := Option.map_eq_some_iff.mp h
      obtain ⟨_, rfl⟩ | ⟨_, fd, rfl⟩ := spec_of_after (P := Registers network address s.node) hafter
        (ensures_connectMaster_registers network { node := s.node } address)
      · rfl
      · rfl
  | learnPrimary address =>
      obtain rfl := Option.some.inj h
      rfl
  | store f =>
      obtain rfl := Option.some.inj h
      rfl
  | socketClose socketFd guestAddr =>
      rw [step, after, run_socketClose _ hinv.isWorker] at h
      obtain rfl := Option.some.inj h
      dsimp only
      split_ifs <;> rfl

theorem masterConhash_step (hinv : Inv s) {a : Action} (h : step s a = some s') :
    s'.masterConhash = match a with
      | .socketClose _ guestAddr => ringAfterClose s guestAddr
      | _ => s.masterConhash := by
  cases a with
  | connectMaster network address =>
      obtain ⟨node', hafter, rfl⟩ := Option.map_eq_some_iff.mp h
      rfl
  | learnPrimary address =>
      obtain rfl := Option.some.inj h
      rfl
  | store f =>
      obtain rfl := Option.some.inj h
      rfl
  | socketClose socketFd guestAddr =>
      rw [step, after, run_socketClose _ hinv.isWorker] at h
      obtain rfl := Option.some.inj h
      rfl

variable {calls : List Call} {c : ConhashS}

/-- A step of the worker changes both rings alike. -/
theorem Keeps.exists_stepCalls
    (h : Keeps platform masters servers calls masters.length s.masterConhash c) (hinv : Inv s)
    (hgroup : Group platform masters) (hmalloc : ∀ i, platform.mallocFails i = false)
    (hmasters : masterAddr s.node = masters) {a : Action} (hstep : step s a = some s') :
    ∃ d, Keeps platform masters servers (calls ++ stepCalls s a) masters.length
      s'.masterConhash d := by
  have hsame := masterConhash_step hinv hstep
  have hstay : ∃ d, Keeps platform masters servers (calls ++ []) masters.length s.masterConhash d :=
    ⟨c, by rwa [List.append_nil]⟩
  cases a with
  | connectMaster network address => exact hsame ▸ hstay
  | learnPrimary address => exact hsame ▸ hstay
  | store f => exact hsame ▸ hstay
  | socketClose socketFd guestAddr =>
      rw [hsame, stepCalls]
      dsimp only
      rw [ringAfterClose]
      split_ifs with hclose
      · refine h.exists_updates hgroup hmalloc le_rfl
          { s.node with masterSockets := s.node.masterSockets.erase guestAddr } _ ?_
        rintro ⟨address, index⟩ hentry
        have hget := List.mk_mem_zipIdx_iff_getElem?.mp hentry
        change (masterAddr s.node)[index]? = _ at hget
        rw [hmasters] at hget
        exact (List.getElem?_eq_some_iff.mp hget).1
      · exact hstay

theorem Keeps.exists_runCalls
    (h : Keeps platform masters servers calls masters.length s.masterConhash c) (hinv : Inv s)
    (hgroup : Group platform masters) (hmalloc : ∀ i, platform.mallocFails i = false)
    (hmasters : masterAddr s.node = masters) (hrun : Runs.run step s as = some s') :
    masterAddr s'.node = masters ∧ ∃ d, Keeps platform masters servers (calls ++ runCalls s as)
      masters.length s'.masterConhash d := by
  induction as generalizing s calls c with
  | nil =>
      obtain rfl := Option.some.inj hrun
      exact ⟨hmasters, c, by rw [runCalls, List.append_nil]; exact h⟩
  | cons a as ih =>
      obtain ⟨t, hstep, hrest⟩ := run_cons_eq_some.mp hrun
      obtain ⟨d, hd⟩ := h.exists_stepCalls hinv hgroup hmalloc hmasters hstep
      have hsame := (masterAddr_step hinv hstep).trans hmasters
      rw [runCalls, hstep, ← List.append_assoc]
      exact ih hd (inv_step hinv hstep) hsame hrest

/-- In every state of a worker's run `conhash_lookup` finds for any object what the worker's
ring says, after the calls that the worker has made; for the worker itself it is the node
with the address of the owner. -/
theorem master_lookups_throughout (hmalloc : ∀ i, platform.mallocFails i = false)
    (hgroup : Group platform (splitStringUsing settings.trackerGroup ';'))
    (hrun : Runs.run step (initial settings workerSockaddr) as = some s) (servers : Nat → NodeS) :
    ∃ c, Reached platform servers
        (initialCalls (splitStringUsing settings.trackerGroup ';') ++
          runCalls (initial settings workerSockaddr) as) c ∧
      (∀ object, (conhashLookup platform object).run c =
        .ok ((masterConhash platform (splitStringUsing settings.trackerGroup ';')).lookup
          s.masterConhash object, c)) ∧
      ownerMaster (masterConhash platform (splitStringUsing settings.trackerGroup ';')) s =
        ((masterConhash platform (splitStringUsing settings.trackerGroup ';')).lookup
          s.masterConhash s.node.workerSockaddr).map fun n =>
            (c.servers n).iden.takeWhile (· ≠ '\x00') := by
  set masters := splitStringUsing settings.trackerGroup ';' with hmasters
  obtain ⟨c₀, h₀⟩ := exists_initialCalls hgroup hmalloc servers le_rfl
  rw [List.take_length] at h₀
  obtain ⟨hsame, c, hc⟩ := Keeps.exists_runCalls (s := initial settings workerSockaddr) h₀
    (inv_initial settings workerSockaddr) hgroup hmalloc rfl hrun
  obtain ⟨_, _, hmodels, _⟩ := hc.reached.models
  have hfew := hc.settled.few hgroup le_rfl
  refine ⟨c, hc.reached, fun object => ?_, ?_⟩
  · obtain ⟨⟨r, _⟩, hlookup, rfl, hanswers⟩ :=
      (hmodels.represents.ensures_conhashLookup hfew platform object).returns
    rw [hlookup, hanswers.unique (answers_masterConhash hc.settled.ring object)]
  · rw [ownerMaster, hsame]
    cases hfound : (masterConhash platform masters).lookup s.masterConhash
        s.node.workerSockaddr with
    | none => rfl
    | some n =>
        have hn := hc.settled.lt_count n
          ((masterConhash platform masters).lookup_mem _ _ _ hfound)
        rw [Option.bind_some, Option.map_some, hc.servers_eq, (hc.settled.setTo n hn).iden,
          List.getD_eq_getElem?_getD, List.getElem?_eq_getElem hn]
        rfl

/-- A hash function that reads the first character of a name and its last one. -/
def byName : Platform where
  hashfunc object :=
    2 * ((object.headD ' ').toNat : Int) + if object.getLast? = some '0' then 0 else 1
  mallocFails _ := false

theorem byName_hash (ch : Char) {address : Str} (h : masters.getD n [] = ch :: address)
    (hhash : hash ∈ masterHashes byName masters n) :
    hash = 2 * (ch.toNat : Int) ∨ hash = 2 * (ch.toNat : Int) + 1 := by
  obtain ⟨i, _, rfl⟩ := List.mem_map.mp hhash
  rw [h]
  change 2 * (ch.toNat : Int) + _ = _ ∨ 2 * (ch.toNat : Int) + _ = _
  split_ifs
  · exact Or.inl (Int.add_zero _)
  · exact Or.inr rfl

theorem group_twoMasters : Group byName (splitStringUsing twoMasters.trackerGroup ';') := by
  have hmasters : splitStringUsing twoMasters.trackerGroup ';' = ["a:1".toList, "b:1".toList] := by
    decide +kernel
  rw [hmasters]
  have hindex {n : Nat} (hn : n < 2) : n = 0 ∨ n = 1 := by omega
  refine ⟨by decide, by decide, fun n hn m hm hash hhash hhash' => ?_, fun n hn => ?_⟩
  · rcases hindex hn with rfl | rfl <;> rcases hindex hm with rfl | rfl
    · rfl
    · have hfirst := byName_hash 'a' rfl hhash
      have hsecond := byName_hash 'b' rfl hhash'
      simp at hfirst hsecond
      omega
    · have hfirst := byName_hash 'b' rfl hhash
      have hsecond := byName_hash 'a' rfl hhash'
      simp at hfirst hsecond
      omega
    · rfl
  · refine ⟨_, List.mem_map_of_mem (a := 0) (by decide), _,
      List.mem_map_of_mem (a := 1) (by decide), ?_⟩
    rcases hindex hn with rfl | rfl <;> decide

theorem master_lookups_throughout_closing : ∃ s c,
    Runs.run step (initial twoMasters []) closingRun = some s ∧
    ∃ r, (conhashLookup byName []).run c = .ok (r, c) := by
  have hruns : (Runs.run step (initial twoMasters []) closingRun).isSome = true := by decide +kernel
  obtain ⟨s, hrun⟩ := Option.isSome_iff_exists.mp hruns
  obtain ⟨c, _, hlookup, _⟩ :=
    master_lookups_throughout (fun _ => rfl) group_twoMasters hrun unnamed
  exact ⟨s, c, hrun, _, hlookup []⟩

end Workers

end FastDCS.MasterRings
