import Mathlib.Data.Finset.Erase
import Mathlib.Data.Finset.Max
import Mathlib.Data.Finset.Range
import FastDCS.Worker

/-!
The consistent-hash ring of a worker: `ConnectMaster` opens connections,
`SocketClose` closes them and rebuilds the ring, `FindOwnerMaster` looks into it.
-/

namespace FastDCS.ConsistentHash

open FastDCS.Strings
open FastDCS.Messages
open FastDCS.Handlers
open FastDCS.Tracker
open FastDCS.Connections
open FastDCS.Worker
open FastDCS.Runs

/-- `conhash_lookup` on the nodes whose virtual nodes are in the ring. A node is
its index in `master_conhash_nodes_`. -/
structure Conhash where
  lookup : Finset Nat → Str → Option Nat
  lookup_eq_none_iff : ∀ nodes object, lookup nodes object = none ↔ nodes = ∅
  lookup_mem : ∀ nodes object index, lookup nodes object = some index → index ∈ nodes

/-- The masters that take a connection now, and the descriptor it gets. -/
structure Network where
  connect : Str → Option Nat

def Network.around (network : Network) : Surroundings where
  nowTime := 0
  connect _ address := (network.connect address).map Int.ofNat
  loopFuel := 0

/-- A worker and its ring. -/
structure State where
  node : Node
  masterConhash : Finset Nat

def masterAddr (node : Node) : List Str := splitStringUsing node.trackerGroup ';'

def live (node : Node) (address : Str) : Bool := (node.masterSockets.find? address).isSome

/-- The address of a node in the ring. -/
def InRing (s : State) (address : Str) : Prop :=
  ∃ index ∈ s.masterConhash, (masterAddr s.node)[index]? = some address

def updateMasterConhash (node : Node) (ring : Finset Nat) : Finset Nat :=
  (masterAddr node).zipIdx.foldl
    (fun ring entry =>
      if live node entry.1 then insert entry.2 ring else ring.erase entry.2)
    ring

/-- What the ring of a worker becomes in `SocketClose`. -/
def ringAfterClose (s : State) (guestAddr : Str) : Finset Nat :=
  if live s.node guestAddr ∧ s.node.primarySockaddr ≠ guestAddr then
    updateMasterConhash
      { s.node with masterSockets := s.node.masterSockets.erase guestAddr } s.masterConhash
  else s.masterConhash

/-- The iden of the node that the ring has for the worker. -/
def ownerMaster (conhash : Conhash) (s : State) : Option Str :=
  (conhash.lookup s.masterConhash s.node.workerSockaddr).bind ((masterAddr s.node)[·]?)

/-- One call of `ConnectMaster`, the assignment of `primary_sockaddr_` when an
answer to `AskTracker` comes, one call of `SocketClose`, or what other threads do
to the task store. -/
inductive Action where
  | connectMaster (network : Network) (address : Str)
  | learnPrimary (address : Str)
  | socketClose (socketFd : Int) (guestAddr : Str)
  | store (f : Enviroment → Enviroment)

def after {α : Type} (node : Node) (handler : Handler α) : Option Node :=
  match handler.run { node := node } with
  | .error _ => none
  | .ok (_, h) => some h.node

def step (s : State) : Action → Option State
  | .connectMaster network address =>
      (after s.node (connectMaster network.around address)).map fun node =>
        { s with node := node }
  | .learnPrimary address => some { s with node := { s.node with primarySockaddr := address } }
  | .socketClose socketFd guestAddr =>
      (after s.node (socketClose { nowTime := 0, connect := fun _ _ => none, loopFuel := 0 }
        socketFd guestAddr)).map fun node =>
          { node := node, masterConhash := ringAfterClose s guestAddr }
  | .store f =>
      some { s with node := { s.node with
        fdcsEnv := { f s.node.fdcsEnv with settings := s.node.fdcsEnv.settings } } }

/-- Behind `InitialTracker` every master of the group is in the ring. -/
def initial (settings : Settings) (workerSockaddr : Str) : State where
  node := (Worker.initial settings workerSockaddr).node
  masterConhash := Finset.range (splitStringUsing settings.trackerGroup ';').length

/-- `ConnectMaster` would return true. -/
def CanConnect (network : Network) (node : Node) (address : Str) : Prop :=
  contains node.trackerGroup address = true ∧
    (live node address ∨
      (splitStringUsing address ':').length = 2 ∧ (network.connect address).isSome)

/-- `FindOwnerMaster` returns -1 only if neither the owner in the ring nor the
primary can be connected. -/
def FindsMaster (conhash : Conhash) (s : State) : Prop :=
  ∀ (network : Network) (h : Handling),
    (findOwnerMaster network.around (ownerMaster conhash s)).run { node := s.node } =
        .ok (-1, h) →
      (∀ owner, ownerMaster conhash s = some owner → ¬CanConnect network s.node owner) ∧
        ¬CanConnect network s.node s.node.primarySockaddr

structure Sound (conhash : Conhash) (s : State) : Prop where
  live_inRing : ∀ address, live s.node address → InRing s address
  finds : FindsMaster conhash s

/-- `ConnectMaster` opens a connection. -/
def Opens (network : Network) (node : Node) (address : Str) : Prop :=
  contains node.trackerGroup address = true ∧ live node address = false ∧
    (network.connect address).isSome

/-- There are masters the address may be connected to. -/
def Joinable (node : Node) (address : Str) : Prop :=
  contains node.trackerGroup address = true ∧
    (live node address ∨ (splitStringUsing address ':').length = 2)

/-- A connection is opened to a master in the ring only; a primary that may be
connected is learnt only with masters in the ring; and when the last connection
to a master closes, it was the primary's or the primary cannot be connected. -/
def KeepsRing (s : State) : Action → Prop
  | .connectMaster network address => Opens network s.node address → InRing s address
  | .learnPrimary address => Joinable s.node address → s.masterConhash.Nonempty
  | .socketClose _ guestAddr =>
      live s.node guestAddr → s.node.primarySockaddr ≠ guestAddr →
        Joinable s.node s.node.primarySockaddr →
          ∃ other ∈ s.node.masterSockets.keys, other ≠ guestAddr
  | .store _ => True

instance (s : State) (address : Str) : Decidable (InRing s address) := by
  unfold InRing
  infer_instance

instance (network : Network) (node : Node) (address : Str) :
    Decidable (Opens network node address) := by
  unfold Opens
  infer_instance

instance (network : Network) (node : Node) (address : Str) :
    Decidable (CanConnect network node address) := by
  unfold CanConnect
  infer_instance

instance (node : Node) (address : Str) : Decidable (Joinable node address) := by
  unfold Joinable
  infer_instance

instance (s : State) (a : Action) : Decidable (KeepsRing s a) := by
  cases a with
  | connectMaster network address =>
      exact inferInstanceAs (Decidable (Opens network s.node address → InRing s address))
  | learnPrimary address =>
      exact inferInstanceAs (Decidable (Joinable s.node address → s.masterConhash.Nonempty))
  | socketClose socketFd guestAddr =>
      exact inferInstanceAs (Decidable (live s.node guestAddr = true →
        s.node.primarySockaddr ≠ guestAddr → Joinable s.node s.node.primarySockaddr →
          ∃ other ∈ s.node.masterSockets.keys, other ≠ guestAddr))
  | store f => exact isTrue trivial

section Rebuilding

theorem mem_foldl_update {node : Node} {entries : List (Str × Nat)} {ring : Finset Nat}
    (hnodup : (entries.map Prod.snd).Nodup) (index : Nat) :
    index ∈ entries.foldl
        (fun ring entry =>
          if live node entry.1 then insert entry.2 ring else ring.erase entry.2) ring ↔
      (∃ address, (address, index) ∈ entries ∧ live node address) ∨
        index ∉ entries.map Prod.snd ∧ index ∈ ring := by
  induction entries generalizing ring with
  | nil => simp
  | cons entry entries ih =>
      obtain ⟨address, i⟩ := entry
      rw [List.map_cons, List.nodup_cons] at hnodup
      rw [List.foldl_cons, ih hnodup.2]
      have hmem : index ∈ (if live node address then insert i ring else ring.erase i) ↔
          index = i ∧ live node address ∨ index ≠ i ∧ index ∈ ring := by
        split_ifs with hlive
        · rw [Finset.mem_insert]
          tauto
        · rw [Finset.mem_erase]
          tauto
      rw [hmem]
      simp only [List.map_cons, List.mem_cons, Prod.mk.injEq]
      constructor
      · rintro (⟨other, hother, hlive⟩ | ⟨hnot, ⟨rfl, hlive⟩ | ⟨hne, hring⟩⟩)
        · exact Or.inl ⟨other, Or.inr hother, hlive⟩
        · exact Or.inl ⟨address, Or.inl ⟨rfl, rfl⟩, hlive⟩
        · exact Or.inr ⟨by tauto, hring⟩
      · rintro (⟨other, ⟨rfl, rfl⟩ | hother, hlive⟩ | ⟨hnot, hring⟩)
        · exact Or.inr ⟨hnodup.1, Or.inl ⟨rfl, hlive⟩⟩
        · exact Or.inl ⟨other, hother, hlive⟩
        · exact Or.inr ⟨by tauto, Or.inr ⟨by tauto, hring⟩⟩

/-- The ring has the connected masters of the group afterwards. -/
theorem mem_updateMasterConhash {node : Node} {ring : Finset Nat}
    (hring : ∀ index ∈ ring, index < (masterAddr node).length) (index : Nat) :
    index ∈ updateMasterConhash node ring ↔
      ∃ address, (masterAddr node)[index]? = some address ∧ live node address := by
  have hindices : (masterAddr node).zipIdx.map Prod.snd = List.range (masterAddr node).length := by
    rw [List.zipIdx_map_snd, List.range_eq_range']
  rw [updateMasterConhash, mem_foldl_update (by rw [hindices]; exact List.nodup_range), hindices]
  simp only [List.mk_mem_zipIdx_iff_getElem?, List.mem_range]
  constructor
  · rintro (hmem | ⟨hnot, hold⟩)
    · exact hmem
    · exact absurd (hring index hold) hnot
  · exact Or.inl

end Rebuilding

section Finding

variable {conhash : Conhash} {s s' : State}

/-- What no step changes: the node is a worker, the ring has nodes of the group
only, and every connection has a descriptor. -/
structure Inv (s : State) : Prop where
  isWorker : s.node.isMaster = false
  indices : ∀ index ∈ s.masterConhash, index < (masterAddr s.node).length
  descriptors : ∀ address fd, s.node.masterSockets.find? address = some fd → 0 ≤ fd

theorem ownerMaster_eq_none_iff (hs : Inv s) :
    ownerMaster conhash s = none ↔ s.masterConhash = ∅ := by
  rw [ownerMaster, ← conhash.lookup_eq_none_iff _ s.node.workerSockaddr]
  cases hlookup : conhash.lookup s.masterConhash s.node.workerSockaddr with
  | none => simp
  | some index =>
      have hlt := hs.indices index (conhash.lookup_mem _ _ _ hlookup)
      simp [hlt]

theorem opened_nonneg (hs : Inv s) {network : Network} {h : Handling}
    (hconnects : Connects network.around { node := s.node } h) {address : Str} {fd : Int}
    (hfind : h.node.masterSockets.find? address = some fd) : 0 ≤ fd := by
  rcases hconnects.opened address fd hfind with hold | ⟨k, hnew⟩
  · exact hs.descriptors address fd hold
  · obtain ⟨n, _, rfl⟩ := Option.map_eq_some_iff.mp hnew
    exact Int.natCast_nonneg n

theorem ensures_opened_fd (hs : Inv s) {network : Network} {h : Handling}
    (hconnects : Connects network.around { node := s.node } h) {address : Str}
    (hsome : (h.node.masterSockets.find? address).isSome) :
    Ensures (masterSocketFd address) h (fun fd _ => fd ≠ -1) fun _ => True := by
  obtain ⟨fd, hfd⟩ := Option.isSome_iff_exists.mp hsome
  refine ensures_masterSocketFd hfd ?_
  have hnonneg := opened_nonneg hs hconnects hfd
  omega

theorem not_canConnect {network : Network} {node : Node} {attempts : Nat} {address : Str}
    {ok : Bool} (hfalse : ok ≠ true)
    (hok : ok = true ↔ contains node.trackerGroup address = true ∧
      ((node.masterSockets.find? address).isSome ∨
        (network.around.connect attempts address).isSome)) :
    ¬CanConnect network node address := by
  rintro ⟨hgroup, hcan⟩
  refine hfalse (hok.mpr ⟨hgroup, hcan.imp id fun hnew => ?_⟩)
  rw [Network.around, Option.isSome_map]
  exact hnew.2

/-- With a master in the ring `FindOwnerMaster` fails only where both
connections do. -/
theorem finds_of_nonempty (hs : Inv s) (hring : s.masterConhash.Nonempty) :
    FindsMaster conhash s := by
  intro network h hrun
  cases howner : ownerMaster conhash s with
  | none =>
      rw [ownerMaster_eq_none_iff hs] at howner
      exact absurd howner hring.ne_empty
  | some owner =>
      have hspec : Ensures (findOwnerMaster network.around (some owner)) { node := s.node }
          (fun fd _ => fd = -1 → ¬CanConnect network s.node owner ∧
            ¬CanConnect network s.node s.node.primarySockaddr) fun _ => True := by
        simp only [findOwnerMaster, ensures_bind, ensures_ite, ensures_get, ensures_pure]
        refine (ensures_connectMaster (Or.inr trivial)).imp ?_
        rintro ok t ⟨hconnects, hok, hsocket, _, hnode⟩
        refine ⟨fun htrue => ?_, fun hfalse => ?_⟩
        · exact (ensures_opened_fd hs hconnects (hsocket htrue)).imp
            fun _ _ hne heq => absurd heq hne
        · have hsame : t.node = s.node := hnode (Bool.eq_false_iff.mpr hfalse)
          refine (ensures_connectMaster (Or.inr trivial)).imp ?_
          rintro ok' t' ⟨hconnects', hok', hsocket', _⟩
          refine ⟨fun htrue => ?_, fun hfalse' _ => ⟨not_canConnect hfalse hok, ?_⟩⟩
          · exact (ensures_opened_fd hs (hconnects.trans hconnects') (hsocket' htrue)).imp
              fun _ _ hne heq => absurd heq hne
          · rw [hsame] at hok'
            exact not_canConnect hfalse' hok'
      rw [howner] at hrun
      obtain ⟨hfirst, hsecond⟩ := hspec.of_run_eq_ok hrun rfl
      refine ⟨fun owner' howner' => ?_, hsecond⟩
      rw [← Option.some.inj howner']
      exact hfirst

/-- Without a master in the ring it fails whatever could be connected. -/
theorem findsMaster_iff (hs : Inv s) : FindsMaster conhash s ↔
    (Joinable s.node s.node.primarySockaddr → s.masterConhash.Nonempty) := by
  constructor
  · rintro hfinds ⟨hgroup, hjoinable⟩
    rw [Finset.nonempty_iff_ne_empty]
    intro hempty
    have hnone : ownerMaster conhash s = none := (ownerMaster_eq_none_iff hs).mpr hempty
    have hrun : (findOwnerMaster (Network.around ⟨fun _ => some 0⟩)
        (ownerMaster conhash s)).run { node := s.node } = .ok (-1, { node := s.node }) := by
      rw [hnone]
      rfl
    refine (hfinds _ _ hrun).2 ⟨hgroup, ?_⟩
    exact hjoinable.imp id fun htwo => ⟨htwo, rfl⟩
  · intro himp
    rcases s.masterConhash.eq_empty_or_nonempty with hempty | hne
    · intro network h _
      have hnone : ownerMaster conhash s = none := (ownerMaster_eq_none_iff hs).mpr hempty
      constructor
      · intro owner howner
        rw [hnone] at howner
        cases howner
      rintro ⟨hgroup, hcan⟩
      have hjoinable := himp ⟨hgroup, hcan.imp id And.left⟩
      exact hjoinable.ne_empty hempty
    · exact finds_of_nonempty hs hne

end Finding

section Steps

variable {conhash : Conhash} {s s' : State}

theorem spec_of_after {α : Type} {node node' : Node} {handler : Handler α} {P : Node → Prop}
    (h : after node handler = some node')
    (hspec : Ensures handler { node := node } (fun _ t => P t.node) fun _ => True) : P node' := by
  rw [after] at h
  cases hrun : handler.run { node := node } with
  | error fault =>
      rw [hrun] at h
      cases h
  | ok r =>
      rw [hrun] at h
      obtain rfl := Option.some.inj h
      exact hspec.of_run_eq_ok hrun

/-- The node with a connection that has been opened. -/
def registered (node : Node) (address : Str) (fd : Int) : Node :=
  { node with
    masterSockets := node.masterSockets.set address fd
    sendBuffers := if fd ∈ node.sendBuffers then node.sendBuffers else fd :: node.sendBuffers }

theorem run_connectMaster (around : Surroundings) (h : Handling) (address : Str) :
    (connectMaster around address).run h =
      if contains h.node.trackerGroup address = false then .ok (false, h)
      else if live h.node address then .ok (true, h)
      else if (splitStringUsing address ':').length = 2 then
        match around.connect h.attempts address with
        | none => .ok (false, { h with attempts := h.attempts + 1 })
        | some fd =>
            .ok (true, { h with
              node := registered h.node address fd
              attempts := h.attempts + 1 })
      else .error .checkFailed := by
  by_cases hgroup : contains h.node.trackerGroup address = false
  · simp [connectMaster, hgroup]
    rfl
  · by_cases hlive : (h.node.masterSockets.find? address).isSome = true
    · simp [connectMaster, hgroup, live, hlive]
      rfl
    · by_cases htwo : (splitStringUsing address ':').length = 2
      · cases hconnect : around.connect h.attempts address with
        | none =>
            simp [connectMaster, hgroup, live, hlive, htwo, checkIP, check, hconnect]
            rfl
        | some fd =>
            simp [connectMaster, hgroup, live, hlive, htwo, checkIP, check, hconnect, modifyNode,
              addSocketResource, registered]
            split_ifs <;> rfl
      · simp [connectMaster, hgroup, live, hlive, htwo, checkIP, check]
        rfl

/-- The connection that a call opens is added, if there is one. -/
def Registers (network : Network) (address : Str) (node node' : Node) : Prop :=
  ¬Opens network node address ∧ node' = node ∨
    Opens network node address ∧ ∃ fd : Nat, node' = registered node address fd

theorem ensures_connectMaster_registers (network : Network) (h : Handling) (address : Str) :
    Ensures (connectMaster network.around address) h
      (fun _ t => Registers network address h.node t.node) fun _ => True := by
  rw [Ensures, run_connectMaster]
  split_ifs with hgroup hlive htwo
  · refine Or.inl ⟨fun hopens => ?_, rfl⟩
    rw [hopens.1] at hgroup
    cases hgroup
  · refine Or.inl ⟨fun hopens => ?_, rfl⟩
    rw [hopens.2.1] at hlive
    cases hlive
  · rw [Network.around]
    dsimp only
    cases hconnect : network.connect address with
    | none =>
        refine Or.inl ⟨fun hopens => ?_, rfl⟩
        have hsome := hopens.2.2
        rw [hconnect] at hsome
        cases hsome
    | some fd =>
        refine Or.inr ⟨⟨Bool.eq_true_of_not_eq_false hgroup, Bool.eq_false_iff.mpr hlive, ?_⟩, fd,
          rfl⟩
        rw [hconnect]
        rfl
  · trivial

/-- The node without its connection to the peer, and without the primary where
it was the peer. -/
def closed (node : Node) (guestAddr : Str) (socketFd : Int) : Node :=
  { node with
    masterSockets := node.masterSockets.erase guestAddr
    primarySockaddr := if node.primarySockaddr = guestAddr then [] else node.primarySockaddr
    sendBuffers := node.sendBuffers.filter (· ≠ socketFd) }

theorem run_socketClose (around : Surroundings) {h : Handling}
    (hworker : h.node.isMaster = false) (socketFd : Int) (guestAddr : Str) :
    (socketClose around socketFd guestAddr).run h =
      .ok (true, { h with
        node :=
          if live h.node guestAddr then closed h.node guestAddr socketFd
          else { h.node with sendBuffers := h.node.sendBuffers.filter (· ≠ socketFd) } }) := by
  by_cases hlive : (h.node.masterSockets.find? guestAddr).isSome = true
  · by_cases hprimary : h.node.primarySockaddr = guestAddr
    · simp [socketClose, live, hlive, hprimary, modifyNode, removeSocketResource, closed]
      rfl
    · simp [socketClose, live, hlive, hprimary, modifyNode, removeSocketResource, closed,
        masterGroupChanged, hworker]
      rfl
  · simp [socketClose, live, hlive, modifyNode, removeSocketResource]
    rfl

theorem live_registered {node : Node} {address other : Str} {fd : Int} :
    live (registered node address fd) other = true ↔ other = address ∨ live node other := by
  rw [live, live, registered, OrderedMap.find?_set]
  split_ifs with heq <;> simp [heq]

theorem live_closed {node : Node} {address other : Str} {socketFd : Int} :
    live (closed node address socketFd) other = true ↔ other ≠ address ∧ live node other := by
  rw [live, live, closed, OrderedMap.find?_erase]
  split_ifs with heq <;> simp [heq]

theorem mem_keys_iff {node : Node} {address : Str} :
    address ∈ node.masterSockets.keys ↔ live node address = true := by
  rw [OrderedMap.mem_keys_iff, live, Option.isSome_iff_exists]

theorem InRing.nonempty {address : Str} (h : InRing s address) : s.masterConhash.Nonempty := by
  obtain ⟨index, hindex, _⟩ := h
  exact ⟨index, hindex⟩

theorem sound_iff (hs : Inv s) : Sound conhash s ↔
    (∀ address, live s.node address → InRing s address) ∧
      (Joinable s.node s.node.primarySockaddr → s.masterConhash.Nonempty) := by
  have hfinds : FindsMaster conhash s ↔ _ := findsMaster_iff hs
  rw [← hfinds]
  constructor
  · intro h
    exact ⟨h.live_inRing, h.finds⟩
  · rintro ⟨hlive, hfinds⟩
    exact ⟨hlive, hfinds⟩

theorem mem_ringAfterClose (hinv : Inv s) {guestAddr : Str} (hguest : live s.node guestAddr = true)
    (hprimary : s.node.primarySockaddr ≠ guestAddr) (index : Nat) :
    index ∈ ringAfterClose s guestAddr ↔ ∃ address,
      (masterAddr s.node)[index]? = some address ∧ address ≠ guestAddr ∧ live s.node address := by
  have hrange : ∀ index ∈ s.masterConhash, index < (masterAddr
      { s.node with masterSockets := s.node.masterSockets.erase guestAddr }).length :=
    hinv.indices
  rw [ringAfterClose, if_pos ⟨hguest, hprimary⟩, mem_updateMasterConhash hrange]
  refine exists_congr fun address => and_congr_right fun _ => ?_
  exact @live_closed s.node guestAddr address 0

theorem ringAfterClose_eq {guestAddr : Str}
    (h : ¬(live s.node guestAddr ∧ s.node.primarySockaddr ≠ guestAddr)) :
    ringAfterClose s guestAddr = s.masterConhash := if_neg h

theorem ringAfterClose_lt (hinv : Inv s) (guestAddr : Str) :
    ∀ index ∈ ringAfterClose s guestAddr, index < (masterAddr s.node).length := by
  intro index hindex
  by_cases hother : live s.node guestAddr ∧ s.node.primarySockaddr ≠ guestAddr
  · obtain ⟨address, hget, _⟩ := (mem_ringAfterClose hinv hother.1 hother.2 index).mp hindex
    exact (List.getElem?_eq_some_iff.mp hget).1
  · rw [ringAfterClose_eq hother] at hindex
    exact hinv.indices index hindex

theorem inv_step (hinv : Inv s) {a : Action} (h : step s a = some s') : Inv s' := by
  cases a with
  | connectMaster network address =>
      obtain ⟨node', hafter, rfl⟩ := Option.map_eq_some_iff.mp h
      obtain ⟨_, rfl⟩ | ⟨_, fd, rfl⟩ := spec_of_after (P := Registers network address s.node) hafter
        (ensures_connectMaster_registers network { node := s.node } address)
      · exact hinv
      · refine ⟨hinv.isWorker, hinv.indices, fun other fd' hfind => ?_⟩
        rw [registered, OrderedMap.find?_set] at hfind
        split_ifs at hfind
        · obtain rfl := Option.some.inj hfind
          exact Int.natCast_nonneg fd
        · exact hinv.descriptors other fd' hfind
  | learnPrimary address =>
      obtain rfl := Option.some.inj h
      exact ⟨hinv.isWorker, hinv.indices, hinv.descriptors⟩
  | store f =>
      obtain rfl := Option.some.inj h
      exact ⟨hinv.isWorker, hinv.indices, hinv.descriptors⟩
  | socketClose socketFd guestAddr =>
      rw [step, after, run_socketClose _ hinv.isWorker] at h
      obtain rfl := Option.some.inj h
      have hring := ringAfterClose_lt hinv guestAddr
      dsimp only
      split_ifs
      · refine ⟨hinv.isWorker, hring, fun address fd hfind => ?_⟩
        rw [closed, OrderedMap.find?_erase] at hfind
        split_ifs at hfind
        exact hinv.descriptors address fd hfind
      · exact ⟨hinv.isWorker, hring, hinv.descriptors⟩

theorem step_connectMaster (hs : Sound conhash s) (hinv : Inv s) {network : Network}
    {address : Str} (h : step s (.connectMaster network address) = some s') :
    Sound conhash s' ↔ KeepsRing s (.connectMaster network address) := by
  have hinv' := inv_step hinv h
  obtain ⟨node', hafter, rfl⟩ := Option.map_eq_some_iff.mp h
  obtain ⟨hstays, rfl⟩ | ⟨hopens, fd, rfl⟩ :=
    spec_of_after (P := Registers network address s.node) hafter
      (ensures_connectMaster_registers network { node := s.node } address)
  · exact iff_of_true hs fun hopens => absurd hopens hstays
  · rw [sound_iff hinv', KeepsRing]
    constructor
    · rintro ⟨hlive, _⟩ _
      exact hlive address (live_registered.mpr (Or.inl rfl))
    · intro hring
      refine ⟨fun other hother => ?_, fun _ => (hring hopens).nonempty⟩
      rcases live_registered.mp hother with rfl | hold
      · exact hring hopens
      · exact hs.live_inRing other hold

theorem step_learnPrimary (hs : Sound conhash s) (hinv : Inv s) {address : Str}
    (h : step s (.learnPrimary address) = some s') :
    Sound conhash s' ↔ KeepsRing s (.learnPrimary address) := by
  have hinv' := inv_step hinv h
  obtain rfl := Option.some.inj h
  rw [sound_iff hinv', KeepsRing]
  exact and_iff_right hs.live_inRing

theorem step_store (hs : Sound conhash s) (hinv : Inv s) {f : Enviroment → Enviroment}
    (h : step s (.store f) = some s') : Sound conhash s' := by
  have hinv' := inv_step hinv h
  obtain rfl := Option.some.inj h
  rw [sound_iff hinv']
  exact (sound_iff hinv).mp hs

/-- The primary's connection closes and the ring stays as it is. -/
theorem sound_close_primary (hs : Sound conhash s) {guestAddr : Str}
    (hguest : live s.node guestAddr = true) (socketFd : Int)
    (hinv' : Inv ⟨closed s.node guestAddr socketFd, s.masterConhash⟩) :
    Sound conhash ⟨closed s.node guestAddr socketFd, s.masterConhash⟩ := by
  rw [sound_iff hinv']
  refine ⟨fun address haddress => ?_, fun _ => (hs.live_inRing _ hguest).nonempty⟩
  exact hs.live_inRing address (live_closed.mp haddress).2

/-- Another connection closes and the ring is rebuilt from those that are left. -/
theorem sound_close_other (hs : Sound conhash s) (hinv : Inv s) {guestAddr : Str}
    (hguest : live s.node guestAddr = true) (hprimary : s.node.primarySockaddr ≠ guestAddr)
    (socketFd : Int) (hinv' : Inv ⟨closed s.node guestAddr socketFd, ringAfterClose s guestAddr⟩) :
    Sound conhash ⟨closed s.node guestAddr socketFd, ringAfterClose s guestAddr⟩ ↔
      (Joinable s.node s.node.primarySockaddr →
        ∃ other ∈ s.node.masterSockets.keys, other ≠ guestAddr) := by
  have hmem := mem_ringAfterClose hinv hguest hprimary
  have hnonempty : (ringAfterClose s guestAddr).Nonempty ↔
      ∃ other ∈ s.node.masterSockets.keys, other ≠ guestAddr := by
    constructor
    · rintro ⟨index, hindex⟩
      obtain ⟨address, _, hne, hlive⟩ := (hmem index).mp hindex
      exact ⟨address, mem_keys_iff.mpr hlive, hne⟩
    · rintro ⟨other, hkey, hne⟩
      have hlive := mem_keys_iff.mp hkey
      obtain ⟨index, _, hget⟩ := hs.live_inRing other hlive
      exact ⟨index, (hmem index).mpr ⟨other, hget, hne, hlive⟩⟩
  have hjoinable : Joinable (closed s.node guestAddr socketFd)
      (closed s.node guestAddr socketFd).primarySockaddr ↔
        Joinable s.node s.node.primarySockaddr := by
    have hsame : (closed s.node guestAddr socketFd).primarySockaddr = s.node.primarySockaddr :=
      if_neg hprimary
    rw [hsame, Joinable, Joinable, live_closed, and_iff_right hprimary]
    rfl
  rw [sound_iff hinv', hnonempty, hjoinable]
  constructor
  · exact And.right
  · intro hother
    refine ⟨fun address haddress => ?_, hother⟩
    have hlive := live_closed.mp haddress
    obtain ⟨index, _, hget⟩ := hs.live_inRing address hlive.2
    exact ⟨index, (hmem index).mpr ⟨address, hget, hlive⟩, hget⟩

theorem step_socketClose (hs : Sound conhash s) (hinv : Inv s) {socketFd : Int} {guestAddr : Str}
    (h : step s (.socketClose socketFd guestAddr) = some s') :
    Sound conhash s' ↔ KeepsRing s (.socketClose socketFd guestAddr) := by
  have hinv' := inv_step hinv h
  rw [step, after, run_socketClose _ hinv.isWorker] at h
  obtain rfl := Option.some.inj h
  clear h
  by_cases hguest : live s.node guestAddr = true
  · rw [if_pos hguest] at hinv' ⊢
    by_cases hprimary : s.node.primarySockaddr = guestAddr
    · have hring := @ringAfterClose_eq s guestAddr fun hboth => hboth.2 hprimary
      rw [hring] at hinv' ⊢
      exact iff_of_true (sound_close_primary hs hguest socketFd hinv')
        fun _ hne => absurd hprimary hne
    · refine (sound_close_other hs hinv hguest hprimary socketFd hinv').trans ?_
      constructor
      · intro hother _ _
        exact hother
      · intro hkeeps
        exact hkeeps hguest hprimary
  · have hring := @ringAfterClose_eq s guestAddr fun hboth => hguest hboth.1
    rw [hring, if_neg hguest] at hinv' ⊢
    refine iff_of_true ?_ fun hlive => absurd hlive hguest
    rw [sound_iff hinv']
    exact (sound_iff hinv).mp hs

/-- A step keeps the property exactly if it meets its condition. -/
theorem sound_step_iff (hs : Sound conhash s) (hinv : Inv s) {a : Action}
    (h : step s a = some s') : Sound conhash s' ↔ KeepsRing s a := by
  cases a with
  | connectMaster network address => exact step_connectMaster hs hinv h
  | learnPrimary address => exact step_learnPrimary hs hinv h
  | socketClose socketFd guestAddr => exact step_socketClose hs hinv h
  | store f => exact iff_of_true (step_store hs hinv h) trivial

theorem inv_initial (settings : Settings) (workerSockaddr : Str) :
    Inv (initial settings workerSockaddr) where
  isWorker := rfl
  indices _ h := Finset.mem_range.mp h
  descriptors _ _ h := by cases h

theorem sound_initial (settings : Settings) (workerSockaddr : Str) :
    Sound conhash (initial settings workerSockaddr) := by
  rw [sound_iff (inv_initial settings workerSockaddr)]
  constructor
  · intro address hlive
    cases hlive
  · rintro ⟨_, hlive | htwo⟩
    · cases hlive
    · cases htwo

/-- In every state of a run each connected master is in the ring and
`FindOwnerMaster` fails only where no connection can be made, exactly when every
step meets its condition. -/
theorem ring_sound_throughout_iff {settings : Settings} {workerSockaddr : Str} {as : List Action}
    {s : State} (hrun : run step (initial settings workerSockaddr) as = some s) :
    Throughout step (Sound conhash) (initial settings workerSockaddr) as ↔
      Along step KeepsRing (initial settings workerSockaddr) as :=
  throughout_iff_along (fun _ _ _ hs hinv h => ⟨sound_step_iff hs hinv h, inv_step hinv h⟩)
    (sound_initial settings workerSockaddr) (inv_initial settings workerSockaddr) hrun

/-- The ring that always finds the first node in it. -/
def firstNode : Conhash where
  lookup nodes _ := if h : nodes.Nonempty then some (nodes.min' h) else none
  lookup_eq_none_iff nodes object := by
    split_ifs with h
    · exact iff_of_false id h.ne_empty
    · exact iff_of_true rfl (Finset.not_nonempty_iff_eq_empty.mp h)
  lookup_mem nodes object index h := by
    split_ifs at h with hne
    exact Option.some.inj h ▸ nodes.min'_mem hne

def twoMasters : Settings where
  trackerGroup := "a:1;b:1".toList
  trackerServer := []

/-- Every master takes a connection. -/
def reachable : Network where
  connect _ := some 3

/-- The connection to a master closes while another one is open. -/
def closingRun : List Action :=
  [.connectMaster reachable "a:1".toList, .learnPrimary "a:1".toList,
    .connectMaster reachable "b:1".toList, .socketClose 3 "b:1".toList]

theorem closingRun_sound :
    Throughout step (Sound firstNode) (initial twoMasters []) closingRun := by
  have hruns : (run step (initial twoMasters []) closingRun).isSome = true := by decide +kernel
  obtain ⟨s, hrun⟩ := Option.isSome_iff_exists.mp hruns
  exact (ring_sound_throughout_iff hrun).mpr (by decide +kernel)

/-- A master that is connected again is not in the ring, and a ring without any
master hides a primary that takes connections. -/
theorem not_every_run_sound :
    (¬∀ (settings : Settings) (workerSockaddr : Str) (as : List Action) (s : State),
        run step (initial settings workerSockaddr) as = some s →
          ∀ address, live s.node address → InRing s address) ∧
      ¬∀ (settings : Settings) (workerSockaddr : Str) (as : List Action) (s : State),
        run step (initial settings workerSockaddr) as = some s → FindsMaster firstNode s := by
  constructor
  · intro hall
    have hlast : (run step (initial twoMasters [])
        (closingRun ++ [.connectMaster reachable "b:1".toList])).map (fun s =>
          (live s.node "b:1".toList, decide (InRing s "b:1".toList))) = some (true, false) := by
      decide +kernel
    obtain ⟨s, hrun, hs⟩ := Option.map_eq_some_iff.mp hlast
    obtain ⟨hlive, hring⟩ := Prod.mk.inj hs
    exact of_decide_eq_false hring (hall _ _ _ s hrun _ hlive)
  · intro hall
    have hlast : (run step (initial twoMasters [])
        [.connectMaster reachable "b:1".toList, .learnPrimary "a:1".toList,
          .socketClose 3 "b:1".toList]).map (fun s =>
            (((findOwnerMaster reachable.around (ownerMaster firstNode s)).run
                { node := s.node }).toOption.map Prod.fst,
              decide (CanConnect reachable s.node s.node.primarySockaddr))) =
        some (some (-1), true) := by
      decide +kernel
    obtain ⟨s, hrun, hs⟩ := Option.map_eq_some_iff.mp hlast
    obtain ⟨hfails, hcan⟩ := Prod.mk.inj hs
    cases hfind : (findOwnerMaster reachable.around (ownerMaster firstNode s)).run
        { node := s.node } with
    | error fault =>
        rw [hfind] at hfails
        cases hfails
    | ok r =>
        obtain ⟨fd, h⟩ := r
        rw [hfind] at hfails
        obtain rfl : fd = -1 := Option.some.inj hfails
        exact (hall _ _ _ s hrun reachable h hfind).2 (of_decide_eq_true hcan)

end Steps

end FastDCS.ConsistentHash
