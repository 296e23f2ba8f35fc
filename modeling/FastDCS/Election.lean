import FastDCS.AddressLists
import FastDCS.Cluster
import FastDCS.GroupWalk

/-!
Agreement on the primary: every message on its way round the group carries the
part of the ring of live masters it has passed, so the master it returns to
sees all of them.
-/

namespace FastDCS.Election

open FastDCS.Strings
open FastDCS.AddressLists
open FastDCS.Messages
open FastDCS.DelimitedLists
open FastDCS.Handlers
open FastDCS.Tracker
open FastDCS.Master
open FastDCS.Connections
open FastDCS.Cluster
open FastDCS.Rings
open FastDCS.GroupWalk
open List (IsRotated isRotated_append)

variable {net : Network}

section Addresses

theorem mem_liveMasters {a : Str} : a ∈ net.liveMasters ↔ a ∈ net.addresses ∧ net.live a = true :=
  List.mem_filter

theorem mem_addresses_of_live {a : Str} (h : a ∈ net.liveMasters) : a ∈ net.addresses :=
  (mem_liveMasters.mp h).1

theorem liveMasters_nodup : net.liveMasters.Nodup := net.distinct.filter _

theorem lastLive_mem : net.lastLive ∈ net.liveMasters := List.getLast_mem _

theorem address_ne_nil {a : Str} (h : a ∈ net.addresses) : a ≠ [] := by
  rintro rfl
  have hlength := (net.wellFormed [] h).2
  simp [splitStringUsing, scan] at hlength

theorem splitStringUsing_intercalate_addresses {xs : List Str} (h : xs ⊆ net.addresses) :
    splitStringUsing ([';'].intercalate xs) ';' = xs :=
  splitStringUsing_intercalate (fun _ hx => (net.wellFormed _ (h hx)).1)
    fun _ hx => address_ne_nil (h hx)

theorem contains_intercalate {a : Str} {xs : List Str} (ha : a ∈ net.addresses)
    (hxs : xs ⊆ net.addresses) : contains ([';'].intercalate xs) a = true ↔ a ∈ xs := by
  rw [contains, decide_eq_true_eq,
    infix_intercalate_iff (net.wellFormed a ha).1 (address_ne_nil ha)]
  constructor
  · rintro ⟨x, hx, hax⟩
    rw [net.noSubstring a ha x (hxs hx) hax]
    exact hx
  · exact fun h => ⟨a, h, List.infix_refl a⟩

theorem contains_trackerGroup {a : Str} (ha : a ∈ net.addresses) :
    contains net.trackerGroup a = true :=
  (contains_intercalate ha (List.Subset.refl _)).mpr ha

end Addresses

/-- The node of a live master: its settings and sockets are those of the
network. -/
structure Placed (net : Network) (master : Str) (node : Node) : Prop where
  isMaster : node.isMaster = true
  group : node.trackerGroup = net.trackerGroup
  server : node.trackerServer = master
  sockets : ∀ address fd, node.masterSockets.find? address = some fd →
    address ∈ net.liveMasters ∧ fd = net.descriptor master address

/-- The node of a live master: its settings and sockets are those of the
network, and the primary it knows is the last live master. -/
structure Wired (net : Network) (master : Str) (node : Node) : Prop where
  isMaster : node.isMaster = true
  group : node.trackerGroup = net.trackerGroup
  server : node.trackerServer = master
  sockets : ∀ address fd, node.masterSockets.find? address = some fd →
    address ∈ net.liveMasters ∧ fd = net.descriptor master address
  primary : node.primarySockaddr = [] ∨ node.primarySockaddr = net.lastLive

theorem Wired.placed {master : Str} {node : Node} (h : Wired net master node) :
    Placed net master node :=
  ⟨h.isMaster, h.group, h.server, h.sockets⟩

/-- The content of a message on its way round is what the group may learn. -/
def Truthful (net : Network) (proto : TrackerProtocol) : Prop :=
  match proto.protocolType with
  | .election => True
  | .coordinator => proto.responseResult = net.lastLive
  | .masterAskTracker => proto.responseResult = [] ∨ proto.responseResult = net.lastLive
  | .masterGroupChanged =>
      ∃ online, online ⊆ net.addresses ∧ proto.requestArgs = [';'].intercalate online
  | _ => False

/-- A message going round: it started at the first of the masters it has passed
and is on its way to the next one of the ring. -/
structure GoesRound (net : Network) (envelope : Envelope) (passed ahead : List Str) : Prop where
  ring : net.liveMasters ~r passed ++ ahead
  request : passed.head? = some envelope.proto.requestSockAddr
  response : envelope.proto.responseSockAddr = [';'].intercalate passed
  receiver : (ahead ++ passed).head? = some envelope.receiver
  truthful : Truthful net envelope.proto

/-- A message going round, whatever it says. -/
structure OnRing (net : Network) (envelope : Envelope) (passed ahead : List Str) : Prop where
  ring : net.liveMasters ~r passed ++ ahead
  request : passed.head? = some envelope.proto.requestSockAddr
  response : envelope.proto.responseSockAddr = [';'].intercalate passed
  receiver : (ahead ++ passed).head? = some envelope.receiver

theorem GoesRound.onRing {envelope : Envelope} {passed ahead : List Str}
    (h : GoesRound net envelope passed ahead) : OnRing net envelope passed ahead :=
  ⟨h.ring, h.request, h.response, h.receiver⟩

/-- A message in flight goes round, or asks the primary to join the group. -/
def Travels (net : Network) (envelope : Envelope) : Prop :=
  (∃ passed ahead, GoesRound net envelope passed ahead) ∨
    envelope.proto.protocolType = .masterJoinGroup ∧
      envelope.proto.requestSockAddr ∈ net.liveMasters ∧ envelope.receiver ∈ net.liveMasters

section Walking

variable {master : Str} {nowTime uninitialised : Int} {E : Fault → Prop}

theorem placed_of_connects {s t : Handling}
    (h : Connects (net.surroundings master nowTime uninitialised) s t)
    (hs : Placed net master s.node) : Placed net master t.node where
  isMaster := h.isMaster.trans hs.isMaster
  group := h.trackerGroup.trans hs.group
  server := h.trackerServer.trans hs.server
  sockets address fd hfd := by
    rcases h.opened address fd hfd with hold | ⟨k, hnew⟩
    · exact hs.sockets address fd hold
    · simp only [Network.surroundings] at hnew
      split_ifs at hnew with hlive
      exact ⟨hlive, (Option.some.inj hnew).symm⟩

theorem wired_of_connects {s t : Handling}
    (h : Connects (net.surroundings master nowTime uninitialised) s t)
    (hs : Wired net master s.node) : Wired net master t.node := by
  have ht := placed_of_connects h hs.placed
  exact ⟨ht.isMaster, ht.group, ht.server, ht.sockets, by rw [h.primary]; exact hs.primary⟩

theorem ensures_connectMaster_live {s : Handling} (hs : Placed net master s.node) {address : Str}
    (haddress : address ∈ net.addresses) :
    Ensures (connectMaster (net.surroundings master nowTime uninitialised) address) s
      (fun ok t =>
        Connects (net.surroundings master nowTime uninitialised) s t ∧
          (ok = true ↔ address ∈ net.liveMasters) ∧
          (ok = true → t.node.masterSockets.find? address =
            some (net.descriptor master address))) E := by
  refine (ensures_connectMaster (Or.inl (net.wellFormed address haddress).2)).imp fun ok t h => ?_
  obtain ⟨hconnects, hok, hsocket, _⟩ := h
  refine ⟨hconnects, ?_, fun htrue => ?_⟩
  · rw [hok, hs.group]
    constructor
    · rintro ⟨_, hold | hnew⟩
      · obtain ⟨fd, hfd⟩ := Option.isSome_iff_exists.mp hold
        exact (hs.sockets address fd hfd).1
      · by_contra hdead
        simp [Network.surroundings, hdead] at hnew
    · intro hlive
      exact ⟨contains_trackerGroup haddress, Or.inr (by simp [Network.surroundings, hlive])⟩
  · obtain ⟨fd, hfd⟩ := Option.isSome_iff_exists.mp (hsocket htrue)
    rw [hfd, ((placed_of_connects hconnects hs).sockets address fd hfd).2]

theorem split_trackerGroup {node : Node} (h : Placed net master node) :
    splitStringUsing node.trackerGroup ';' = net.addresses := by
  rw [h.group, Network.trackerGroup, splitStringUsing_intercalate_addresses (List.Subset.refl _)]

/-- The walk of `FindNextMaster` from an address ahead of the master: it stops
at the first live one, or at the master itself. -/
theorem ensures_findNextMasterLoop_live (tried : List Str) {fuel : Nat} {ahead : List Str}
    {address : Str} {s : Handling} (hs : Placed net master s.node)
    (hring : net.addresses ~r master :: (tried ++ ahead))
    (haddress : (ahead ++ [master]).head? = some address) (hfuel : ahead.length < fuel) :
    Ensures (findNextMasterLoop (net.surroundings master nowTime uninitialised) fuel address) s
      (fun fd t =>
        Connects (net.surroundings master nowTime uninitialised) s t ∧
          fd = ((ahead.find? net.live).map (net.descriptor master)).getD (-1)) E := by
  induction ahead generalizing tried address s fuel with
  | nil =>
      obtain rfl : master = address := by simpa using haddress
      obtain ⟨fuel, rfl⟩ := Nat.exists_eq_succ_of_ne_zero (Nat.ne_of_gt hfuel)
      rw [findNextMasterLoop, ensures_bind, ensures_get, if_pos hs.server.symm]
      exact ⟨Connects.refl s, rfl⟩
  | cons candidate ahead ih =>
      obtain rfl : candidate = address := by simpa using haddress
      obtain ⟨fuel, rfl⟩ := Nat.exists_eq_succ_of_ne_zero (Nat.ne_zero_of_lt hfuel)
      have hcandidate : net.addresses ~r candidate :: (ahead ++ master :: tried) :=
        isRotated_middle hring
      have hmem : candidate ∈ net.addresses := hcandidate.mem_iff.mpr List.mem_cons_self
      have hother : candidate ≠ s.node.trackerServer := by
        rw [hs.server]
        rintro rfl
        have hnodup := hcandidate.nodup_iff.mp net.distinct
        exact (List.nodup_cons.mp hnodup).1 (by simp)
      rw [findNextMasterLoop, ensures_bind, ensures_get, if_neg hother, ensures_bind]
      refine (ensures_connectMaster_live hs hmem).imp fun ok t hconnect => ?_
      obtain ⟨hst, hok, hsocket⟩ := hconnect
      have ht := placed_of_connects hst hs
      cases ok with
      | true =>
          have hlive : net.live candidate = true := (mem_liveMasters.mp (hok.mp rfl)).2
          rw [if_pos rfl]
          refine ensures_masterSocketFd (hsocket rfl) ⟨hst, ?_⟩
          rw [List.find?_cons_of_pos hlive]
          rfl
      | false =>
          have hdead : ¬net.live candidate = true := fun hlive =>
            Bool.false_ne_true (hok.mpr (mem_liveMasters.mpr ⟨hmem, hlive⟩))
          rw [if_neg Bool.false_ne_true, ensures_bind, List.find?_cons_of_neg hdead]
          obtain ⟨next, rest, hnext⟩ : ∃ next rest, ahead ++ master :: tried = next :: rest := by
            cases ahead with
            | nil => exact ⟨master, tried, rfl⟩
            | cons next ahead => exact ⟨next, ahead ++ master :: tried, rfl⟩
          refine ensures_nextMasterAddress_of_isRotated net.distinct (split_trackerGroup ht)
            (hnext ▸ hcandidate) ?_
          have hhead : (ahead ++ [master]).head? = some next := by
            cases ahead with
            | nil => simpa using congrArg List.head? hnext
            | cons first ahead => simpa using congrArg List.head? hnext
          have hring' : net.addresses ~r master :: (tried ++ [candidate] ++ ahead) := by
            simpa using hring
          have hrest := ih (tried ++ [candidate]) ht hring' hhead (Nat.lt_of_succ_lt_succ hfuel)
          refine hrest.imp fun fd u hu => ?_
          exact ⟨hst.trans hu.1, hu.2⟩

theorem ensures_findNextMaster_live {s : Handling} (hs : Placed net master s.node)
    {ahead : List Str} (hring : net.liveMasters ~r master :: ahead) :
    Ensures (findNextMaster (net.surroundings master nowTime uninitialised)) s
      (fun fd t =>
        Connects (net.surroundings master nowTime uninitialised) s t ∧
          fd = (ahead.head?.map (net.descriptor master)).getD (-1)) E := by
  have hlive : master ∈ net.liveMasters := hring.mem_iff.mpr List.mem_cons_self
  obtain ⟨rest, hrest⟩ := exists_isRotated_cons (mem_addresses_of_live hlive)
  have hfiltered : net.liveMasters ~r master :: rest.filter net.live := by
    have h := isRotated_filter hrest net.live
    rwa [List.filter_cons_of_pos (mem_liveMasters.mp hlive).2] at h
  have hhead : rest.find? net.live = ahead.head? := by
    rw [← List.head?_filter]
    exact head?_unique liveMasters_nodup hfiltered hring
  have hlength : rest.length < net.addresses.length := by
    rw [hrest.perm.length_eq, List.length_cons]
    exact Nat.lt_succ_self _
  rw [findNextMaster, ensures_bind, ensures_get, hs.server, ensures_bind]
  have hwalk : ∀ next t, (rest ++ [master]).head? = some next → t = s →
      Ensures (findNextMasterLoop (net.surroundings master nowTime uninitialised)
        net.addresses.length next) t
        (fun fd u => Connects (net.surroundings master nowTime uninitialised) s u ∧
          fd = (ahead.head?.map (net.descriptor master)).getD (-1)) E := by
    rintro next t hnext rfl
    rw [← hhead]
    exact ensures_findNextMasterLoop_live [] hs hrest hnext hlength
  cases rest with
  | nil =>
      -- the group has one master
      have hone : net.addresses = [master] := List.isRotated_singleton_iff.mp hrest
      simp only [nextMasterAddress, ensures_bind, ensures_get]
      rw [split_trackerGroup hs, hone]
      refine ensures_check (Or.inl rfl) fun _ => ?_
      rw [ensures_pure, ← hone]
      refine hwalk _ s ?_ rfl
      simp [hone, nextAddressLoop]
  | cons next rest =>
      exact ensures_nextMasterAddress_of_isRotated net.distinct (split_trackerGroup hs) hrest
        (hwalk next s rfl rfl)

end Walking

section Sending

variable {master : Str} {nowTime uninitialised : Int} {E : Fault → Prop}

/-- A handler of a live master so far: the node is wired, what it sent travels,
and in a group of several it has not signalled its exchange thread. -/
structure Good (net : Network) (master : Str) (s : Handling) : Prop where
  live : master ∈ net.liveMasters
  wired : Wired net master s.node
  travels : ∀ envelope ∈ sentBy net master s.effects, Travels net envelope
  unsignalled : 2 ≤ net.liveMasters.length → Effect.masterSignal ∉ s.effects

theorem Good.of_connects {s t : Handling} (hs : Good net master s)
    (h : Connects (net.surroundings master nowTime uninitialised) s t) : Good net master t where
  live := hs.live
  wired := wired_of_connects h hs.wired
  travels := by rw [h.effects]; exact hs.travels
  unsignalled := by rw [h.effects]; exact hs.unsignalled

/-- A message that a master is about to pass on, or to start a round with. -/
structure Ready (net : Network) (master : Str) (proto : TrackerProtocol)
    (passed ahead : List Str) : Prop where
  ring : net.liveMasters ~r passed ++ master :: ahead
  request : (passed ++ [master]).head? = some proto.requestSockAddr
  response : proto.responseSockAddr = [';'].intercalate passed
  truthful : Truthful net proto

theorem ring_subset_addresses {passed ahead : List Str}
    (h : net.liveMasters ~r passed ++ ahead) : passed ⊆ net.addresses := fun _ ha =>
  mem_addresses_of_live (h.mem_iff.mpr (List.mem_append_left _ ha))

/-- Sending adds the master to the part of the ring that was passed. -/
theorem onRing_stamped {node : Node} (hnode : Placed net master node) {proto : TrackerProtocol}
    {passed ahead : List Str} (hring : net.liveMasters ~r passed ++ master :: ahead)
    (hrequest : (passed ++ [master]).head? = some proto.requestSockAddr)
    (hresponse : proto.responseSockAddr = [';'].intercalate passed) {receiver : Str}
    (hreceiver : (ahead ++ passed).head? = some receiver) :
    OnRing net ⟨receiver, stamped node proto⟩ (passed ++ [master]) ahead where
  ring := by simpa using hring
  request := hrequest
  response := by
    simp only [stamped, hnode.isMaster, if_true, hnode.server, hresponse]
    rcases eq_or_ne passed [] with rfl | hne
    · simp
    · have hnonempty := intercalate_ne_nil (d := ';') hne fun a ha =>
        address_ne_nil (ring_subset_addresses hring ha)
      rw [if_neg (by simpa using hnonempty), intercalate_concat ';' master hne]
  receiver := by
    rw [← List.append_assoc, List.head?_append, hreceiver]
    rfl

theorem goesRound_stamped {node : Node} (hnode : Wired net master node) {proto : TrackerProtocol}
    {passed ahead : List Str} (h : Ready net master proto passed ahead) {receiver : Str}
    (hreceiver : (ahead ++ passed).head? = some receiver) :
    GoesRound net ⟨receiver, stamped node proto⟩ (passed ++ [master]) ahead := by
  have hround := onRing_stamped hnode.placed h.ring h.request h.response hreceiver
  exact ⟨hround.ring, hround.request, hround.response, hround.receiver, h.truthful⟩

/-- A descriptor leads to the master it connects. -/
theorem find?_descriptor (master : Str) {receiver : Str} (hreceiver : receiver ∈ net.liveMasters) :
    (net.liveMasters.find? fun b =>
      decide (net.descriptor master b = net.descriptor master receiver)) = some receiver := by
  cases hfind : net.liveMasters.find? fun b =>
      decide (net.descriptor master b = net.descriptor master receiver) with
  | none =>
      have := List.find?_eq_none.mp hfind receiver hreceiver
      simp at this
  | some b =>
      have hb := List.find?_some hfind
      rw [decide_eq_true_eq] at hb
      have hlive := List.mem_of_find?_eq_some hfind
      rw [net.descriptor_injective master b (mem_addresses_of_live hlive) receiver
        (mem_addresses_of_live hreceiver) hb]

theorem good_send {s : Handling} (hs : Good net master s) {receiver : Str}
    (hreceiver : receiver ∈ net.liveMasters) {proto : TrackerProtocol}
    (htravels : Travels net ⟨receiver, stamped s.node proto⟩) :
    Ensures (sendProtocol proto (net.descriptor master receiver)) s
      (fun _ t => Good net master t ∧ t.node = s.node) E := by
  simp only [sendProtocol, ensures_bind, ensures_get, ensures_ite, emit, ensures_modify,
    ensures_pure, and_true]
  refine ⟨fun _ => ⟨hs.live, hs.wired, ?_, fun hmany => ?_⟩, fun _ => hs⟩
  · intro envelope henvelope
    rw [sentBy, List.filterMap_append] at henvelope
    rcases List.mem_append.mp henvelope with hold | hnew
    · exact hs.travels envelope hold
    · simp only [List.filterMap_cons, find?_descriptor master hreceiver, Option.map_some,
        List.filterMap_nil, List.mem_singleton] at hnew
      rw [hnew]
      exact htravels
  · simpa using hs.unsignalled hmany

/-- `FindNextMaster` at a master on a round: there is a next master to send to,
or the master is the only live one. -/
theorem ensures_next {s : Handling} (hs : Placed net master s.node) {passed ahead : List Str}
    (hring : net.liveMasters ~r passed ++ master :: ahead) :
    Ensures (findNextMaster (net.surroundings master nowTime uninitialised)) s
      (fun fd t =>
        Connects (net.surroundings master nowTime uninitialised) s t ∧
          (fd = -1 ∧ net.liveMasters = [master] ∨
            fd ≠ -1 ∧ ∃ receiver ∈ net.liveMasters, (ahead ++ passed).head? = some receiver ∧
              fd = net.descriptor master receiver)) E := by
  have hnext := isRotated_middle hring
  refine (ensures_findNextMaster_live hs hnext).imp fun fd t h => ⟨h.1, ?_⟩
  cases hahead : ahead ++ passed with
  | nil =>
      rw [hahead] at hnext
      exact Or.inl ⟨by simpa [hahead] using h.2, List.isRotated_singleton_iff.mp hnext⟩
  | cons receiver rest =>
      have hfd : fd = net.descriptor master receiver := by simpa [hahead] using h.2
      have hpos := net.descriptor_pos master receiver
      refine Or.inr ⟨by omega, receiver, ?_, rfl, hfd⟩
      rw [hnext.mem_iff, hahead]
      exact List.mem_cons_of_mem _ List.mem_cons_self

end Sending

section Handlers

variable {pb : Protobuf} {master : Str} {nowTime uninitialised : Int} {E : Fault → Prop}

theorem lastLive_of_singleton (h : net.liveMasters = [master]) : net.lastLive = master := by
  simp [Network.lastLive, h]

theorem ready_new {ahead : List Str}
    (hring : net.liveMasters ~r master :: ahead) {proto : TrackerProtocol}
    (hrequest : proto.requestSockAddr = master) (hresponse : proto.responseSockAddr = [])
    (htruthful : Truthful net proto) : Ready net master proto [] ahead where
  ring := hring
  request := by rw [hrequest]; rfl
  response := hresponse
  truthful := htruthful

theorem request_newTrackerProtocol {node : Node} (hnode : Wired net master node)
    (protocolType : ProtocolType) :
    (newTrackerProtocol node protocolType).requestSockAddr = master := by
  simp [newTrackerProtocol, hnode.isMaster, hnode.server]

theorem sentBy_masterSignal (master : Str) (effects : List Effect) :
    sentBy net master (effects ++ [.masterSignal]) = sentBy net master effects := by
  rw [sentBy, List.filterMap_append]
  exact List.append_nil _

theorem good_becomePrimary {s : Handling} (hs : Good net master s)
    (hone : net.liveMasters = [master]) :
    Ensures becomePrimary s (fun _ t => Good net master t) E := by
  refine ⟨hs.live, ⟨hs.wired.isMaster, hs.wired.group, hs.wired.server, hs.wired.sockets,
    Or.inr ?_⟩, ?_, fun hmany => ?_⟩
  · rw [lastLive_of_singleton hone]
    exact hs.wired.server
  · intro envelope henvelope
    exact hs.travels envelope (sentBy_masterSignal _ _ ▸ henvelope)
  · rw [hone] at hmany
    simp at hmany

/-- The common end of the handlers that start a round: with a next master the
new message goes to it, without one the master becomes primary. -/
theorem good_startRound (proto : Handling → TrackerProtocol) {s : Handling}
    (hs : Good net master s)
    (hproto : ∀ t : Handling, Wired net master t.node → (proto t).requestSockAddr = master ∧
      (proto t).responseSockAddr = [] ∧ Truthful net (proto t))
    {alone : Handler Bool} (halone : ∀ t, Good net master t → net.liveMasters = [master] →
      Ensures alone t (fun _ u => Good net master u) E) :
    Ensures (do
        let fd ← findNextMaster (net.surroundings master nowTime uninitialised)
        if fd = -1 then alone else do
          let t ← get
          sendProtocol (proto t) fd) s (fun _ t => Good net master t) E := by
  obtain ⟨ahead, hring⟩ := exists_isRotated_cons hs.live
  have hnext : net.liveMasters ~r [] ++ master :: ahead := hring
  rw [ensures_bind]
  refine (ensures_next hs.wired.placed hnext).imp fun fd t h => ?_
  obtain ⟨hst, hfd⟩ := h
  have ht := hs.of_connects hst
  rcases hfd with ⟨rfl, hone⟩ | ⟨hne, receiver, hlive, hreceiver, rfl⟩
  · rw [if_pos rfl]
    exact halone t ht hone
  · obtain ⟨hrequest, hresponse, htruthful⟩ := hproto t ht.wired
    rw [if_neg hne, ensures_bind, ensures_get]
    have hready := ready_new hring hrequest hresponse htruthful
    exact (good_send ht hlive (Or.inl ⟨_, _, goesRound_stamped ht.wired hready hreceiver⟩)).imp
      fun _ u hu => hu.1

theorem good_election {s : Handling} (hs : Good net master s) :
    Ensures (election (net.surroundings master nowTime uninitialised)) s
      (fun _ t => Good net master t) E :=
  good_startRound (fun t => newTrackerProtocol t.node .election) hs
    (fun _ ht => ⟨request_newTrackerProtocol ht .election, rfl, trivial⟩)
    fun _ ht hone => good_becomePrimary ht hone

theorem good_askTracker {s : Handling} (hs : Good net master s) :
    Ensures (askTracker (net.surroundings master nowTime uninitialised)) s
      (fun _ t => Good net master t) E :=
  good_startRound (fun t => newTrackerProtocol t.node .masterAskTracker) hs
    (fun _ ht => ⟨request_newTrackerProtocol ht .masterAskTracker, rfl, Or.inl rfl⟩)
    fun _ ht _ => good_election ht

theorem good_coordinator {s : Handling} (hs : Good net master s)
    (hcheck : E .checkFailed ∨ 0 ≤ s.node.fdcsEnv.fdcsTime nowTime) :
    Ensures (coordinator pb (net.surroundings master nowTime uninitialised) net.lastLive) s
      (fun _ t => Good net master t) E := by
  obtain ⟨ahead, hring⟩ := exists_isRotated_cons hs.live
  have hnext : net.liveMasters ~r [] ++ master :: ahead := hring
  rw [coordinator, ensures_bind]
  refine (ensures_next hs.wired.placed hnext).imp fun fd t h => ?_
  obtain ⟨hst, hfd⟩ := h
  have ht := hs.of_connects hst
  rcases hfd with ⟨rfl, hone⟩ | ⟨hne, receiver, hlive, hreceiver, rfl⟩
  · rw [if_pos rfl]
    exact good_becomePrimary ht hone
  · rw [if_neg hne, ensures_bind, ensures_get, ensures_bind]
    refine ensures_addProtoFdcsTime pb _ (by rw [hst.fdcsEnv]; exact hcheck) fun pairs => ?_
    have hready : Ready net master
        { newTrackerProtocol t.node .coordinator with
          responseResult := net.lastLive, keyValuesPairs := pairs } [] ahead :=
      ready_new hring (request_newTrackerProtocol ht.wired .coordinator) rfl rfl
    exact (good_send ht hlive (Or.inl ⟨_, _, goesRound_stamped ht.wired hready hreceiver⟩)).imp
      fun _ u hu => hu.1

theorem good_continueTransferProto {s : Handling} (hs : Good net master s)
    {proto : TrackerProtocol} {passed ahead : List Str}
    (hready : Ready net master proto passed ahead) :
    Ensures (continueTransferProto (net.surroundings master nowTime uninitialised) proto) s
      (fun _ t => Good net master t) E := by
  rw [continueTransferProto, ensures_bind]
  refine (ensures_next hs.wired.placed hready.ring).imp fun fd t h => ?_
  obtain ⟨hst, hfd⟩ := h
  have ht := hs.of_connects hst
  rcases hfd with ⟨rfl, _⟩ | ⟨hne, receiver, hlive, hreceiver, rfl⟩
  · exact ht
  · rw [if_neg hne, ensures_bind]
    exact (good_send ht hlive (Or.inl ⟨_, _, goesRound_stamped ht.wired hready hreceiver⟩)).imp
      fun _ u hu => hu.1

theorem good_joinMasterGroup {s : Handling} (hs : Good net master s) (proto : TrackerProtocol) :
    Ensures (joinMasterGroup pb (net.surroundings master nowTime uninitialised) proto) s
      (fun _ t => Good net master t) E := by
  rw [joinMasterGroup, ensures_bind, ensures_get]
  refine ensures_ite.mpr ⟨fun _ => hs, fun hjoin => ?_⟩
  have hprimary : s.node.primarySockaddr = net.lastLive := by
    refine hs.wired.primary.resolve_left fun hempty => hjoin ?_
    simp [Node.iKnowPrimaryMaster, hempty]
  rw [hprimary, ensures_bind]
  refine (ensures_connectMaster_live hs.wired.placed (mem_addresses_of_live lastLive_mem)).imp
    fun ok t h => ?_
  obtain ⟨hst, _, hsocket⟩ := h
  have ht := hs.of_connects hst
  cases ok with
  | false => exact ht
  | true =>
      rw [if_pos rfl, ensures_bind, modifyEnv, modifyNode, ensures_modify, ensures_bind]
      refine ensures_masterSocketFd (hsocket rfl) ?_
      rw [ensures_bind, ensures_get]
      have hsettled : Good net master { t with node := { t.node with
          fdcsEnv := t.node.fdcsEnv.calcFdcsTimeDiffer nowTime (protoFdcsTime pb
            (net.surroundings master nowTime uninitialised) proto) } } :=
        ⟨ht.live, ⟨ht.wired.isMaster, ht.wired.group, ht.wired.server, ht.wired.sockets,
          ht.wired.primary⟩, ht.travels, ht.unsignalled⟩
      have hrequest := request_newTrackerProtocol hsettled.wired .masterJoinGroup
      refine (good_send hsettled lastLive_mem (Or.inr ⟨rfl, ?_, lastLive_mem⟩)).imp
        fun _ u hu => hu.1
      exact Eq.mpr (congrArg (· ∈ net.liveMasters) hrequest) hs.live

theorem onlineMaster_eq {node : Node} (hnode : Wired net master node) :
    ∃ online, online ⊆ net.addresses ∧ onlineMaster node = [';'].intercalate online := by
  refine ⟨onlineMembers node, fun a ha => ?_, onlineMaster_eq_intercalate node⟩
  rw [← split_trackerGroup hnode.placed]
  exact List.mem_of_mem_filter ha

theorem good_masterGroupChanged {s : Handling} (hs : Good net master s) :
    Ensures (masterGroupChanged (net.surroundings master nowTime uninitialised)) s
      (fun _ t => Good net master t) E := by
  rw [masterGroupChanged, ensures_bind, ensures_get]
  refine ensures_ite.mpr ⟨fun _ => hs, fun _ => ?_⟩
  exact good_startRound
    (fun t => { newTrackerProtocol t.node .masterGroupChanged with
      requestArgs := onlineMaster t.node }) hs
    (fun _ ht => ⟨request_newTrackerProtocol ht .masterGroupChanged, rfl, onlineMaster_eq ht⟩)
    fun _ ht _ => (ensures_pure _).mpr ht

theorem good_connectOnlineMaster {s : Handling} (hs : Good net master s) {online : List Str}
    (honline : online ⊆ net.addresses) :
    Ensures (connectOnlineMaster (net.surroundings master nowTime uninitialised)
      ([';'].intercalate online)) s (fun _ t => Good net master t) E := by
  rw [connectOnlineMaster, splitStringUsing_intercalate_addresses honline]
  induction online generalizing s with
  | nil => exact hs
  | cons address rest ih =>
      rw [List.forM, ensures_bind, ensures_bind]
      refine (ensures_connectMaster_live hs.wired.placed (honline List.mem_cons_self)).imp
        fun _ t h => ?_
      exact ih (hs.of_connects h.1) fun a ha => honline (List.mem_cons_of_mem _ ha)

end Handlers

end FastDCS.Election
