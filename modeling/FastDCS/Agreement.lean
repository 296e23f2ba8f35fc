import FastDCS.Election

/-!
Agreement: in every run of a group with fixed live masters, whatever rounds are
under way together, a master that knows a primary knows the last live one.
-/

namespace FastDCS.Agreement

open FastDCS.Strings
open FastDCS.Messages
open FastDCS.DelimitedLists
open FastDCS.Handlers
open FastDCS.Runs
open FastDCS.Tracker
open FastDCS.Master
open FastDCS.Connections
open FastDCS.Cluster
open FastDCS.Election
open List (IsRotated)

variable {pb : Protobuf} {net : Network} {nowTime uninitialised : Int} {E : Fault → Prop}

section Rounds

theorem ready_of_goesRound {envelope : Envelope} {passed ahead : List Str}
    (h : GoesRound net envelope passed (envelope.receiver :: ahead)) :
    Ready net envelope.receiver envelope.proto passed ahead where
  ring := h.ring
  request := by
    rw [List.head?_append, h.request]
    rfl
  response := h.response
  truthful := h.truthful

theorem closedCircle_iff {envelope : Envelope} {passed ahead : List Str}
    (h : OnRing net envelope passed ahead) {node : Node}
    (hnode : Placed net envelope.receiver node) :
    closedCircle node envelope.proto = true ↔ envelope.receiver ∈ passed := by
  have hsubset := ring_subset_addresses h.ring
  have hmem : envelope.receiver ∈ net.addresses := by
    refine mem_addresses_of_live (h.ring.mem_iff.mpr ?_)
    rw [List.mem_append, or_comm, ← List.mem_append]
    exact List.mem_of_head? h.receiver
  rw [closedCircle, Bool.or_eq_true, decide_eq_true_eq, hnode.server, h.response,
    contains_intercalate hmem hsubset]
  constructor
  · rintro (hrequest | hpassed)
    · rw [← hrequest]
      exact List.mem_of_head? h.request
    · exact hpassed
  · exact Or.inr

theorem onRing_cases {envelope : Envelope} {passed ahead : List Str}
    (h : OnRing net envelope passed ahead) :
    (ahead = [] ∧ envelope.receiver ∈ passed ∧
        envelope.proto.requestSockAddr = envelope.receiver) ∨
      ∃ rest, ahead = envelope.receiver :: rest ∧ envelope.receiver ∉ passed := by
  cases ahead with
  | nil =>
      have hreceiver : passed.head? = some envelope.receiver := h.receiver
      refine Or.inl ⟨rfl, List.mem_of_head? hreceiver, ?_⟩
      exact Option.some.inj (h.request.symm.trans hreceiver)
  | cons first rest =>
      obtain rfl : first = envelope.receiver := Option.some.inj h.receiver
      refine Or.inr ⟨rest, rfl, fun hpassed => ?_⟩
      have hnodup := h.ring.nodup_iff.mp liveMasters_nodup
      exact List.disjoint_of_nodup_append hnodup hpassed List.mem_cons_self

theorem electionResult_eq_lastLive {passed : List Str} {master : Str}
    (hring : net.liveMasters ~r passed) (hmaster : master ∈ passed) :
    electionResult net.addresses ([';'].intercalate passed ++ ';' :: master) =
      some net.lastLive := by
  have hne : passed ≠ [] := List.ne_nil_of_mem hmaster
  have hsubset : passed ++ [master] ⊆ net.addresses := by
    intro a ha
    have hpassed : a ∈ passed := (List.mem_append.mp ha).elim id fun h =>
      List.mem_singleton.mp h ▸ hmaster
    exact mem_addresses_of_live (hring.mem_iff.mpr hpassed)
  rw [electionResult, ← intercalate_concat ';' master hne, ← List.head?_filter,
    List.filter_reverse, List.head?_reverse]
  have hlive : net.addresses.filter (contains ([';'].intercalate (passed ++ [master]))) =
      net.liveMasters := by
    refine List.filter_congr fun a ha => ?_
    rw [Bool.eq_iff_iff, contains_intercalate ha hsubset, List.mem_append, List.mem_singleton]
    constructor
    · intro h
      have hpassed : a ∈ passed := h.elim id fun h => h ▸ hmaster
      exact (mem_liveMasters.mp (hring.mem_iff.mpr hpassed)).2
    · intro h
      exact Or.inl (hring.mem_iff.mp (mem_liveMasters.mpr ⟨ha, h⟩))
  rw [hlive]
  exact List.getLast?_eq_some_getLast net.someLive

end Rounds

section Delivery

/-- A `COORDINATOR` is back at the master that sent it and names that master. -/
def Crowns (envelope : Envelope) : Prop :=
  envelope.proto.protocolType = .coordinator ∧
    envelope.proto.requestSockAddr = envelope.receiver ∧
    envelope.proto.responseResult = envelope.receiver

/-- What a delivery leaves: the master is wired, what it sent travels, and in a
group of several only a crowning message makes it activate itself. -/
structure Settled (net : Network) (envelope : Envelope) (t : Handling) : Prop where
  wired : Wired net envelope.receiver t.node
  travels : ∀ e ∈ sentBy net envelope.receiver t.effects, Travels net e
  signalled : 2 ≤ net.liveMasters.length → Effect.masterSignal ∈ t.effects → Crowns envelope
  activated : Crowns envelope → activates t = true

theorem settled_of_good {envelope : Envelope} {t : Handling} (h : Good net envelope.receiver t)
    (hplain : ¬Crowns envelope) : Settled net envelope t where
  wired := h.wired
  travels := h.travels
  signalled hmany hsignal := absurd hsignal (h.unsignalled hmany)
  activated hcrowns := absurd hcrowns hplain


variable {envelope : Envelope} {s : Handling}

theorem settled_coordinator {passed ahead : List Str}
    (h : GoesRound net envelope passed ahead) (hs : Good net envelope.receiver s)
    (htype : envelope.proto.protocolType = .coordinator) :
    Ensures (processCoordinator pb (net.surroundings envelope.receiver nowTime uninitialised)
        (closedCircle s.node envelope.proto) envelope.proto) s
      (fun _ t => Settled net envelope t) E := by
  have hnamed : envelope.proto.responseResult = net.lastLive := by
    have := h.truthful
    rwa [Truthful, htype] at this
  have hwell := (net.wellFormed _ (mem_addresses_of_live lastLive_mem)).2
  have hcircle := closedCircle_iff h.onRing hs.wired.placed
  rw [processCoordinator, checkIP, ensures_bind, hnamed]
  refine ensures_check (Or.inl (decide_eq_true hwell)) fun _ => ?_
  rw [ensures_bind, modifyNode, ensures_modify]
  have hset : Good net envelope.receiver
      { s with node := { s.node with primarySockaddr := net.lastLive } } :=
    ⟨hs.live, ⟨hs.wired.isMaster, hs.wired.group, hs.wired.server, hs.wired.sockets, Or.inr rfl⟩,
      hs.travels, hs.unsignalled⟩
  rcases onRing_cases h.onRing with ⟨_, hpassed, hrequest⟩ | ⟨rest, rfl, hnew⟩
  · rw [if_pos (hcircle.mpr hpassed)]
    simp only [ensures_bind, ensures_get, ensures_ite, upgradeTracker, modifyEnv, modifyNode, emit,
      ensures_modify, ensures_pure]
    have hserver : s.node.trackerServer = envelope.receiver := hs.wired.server
    refine ⟨fun hown => ?_, fun hother => settled_of_good hset fun hcrowns => hother ?_⟩
    · have hcrowns : Crowns envelope :=
        ⟨htype, hrequest, hnamed.trans (hown.trans hserver)⟩
      refine ⟨⟨hs.wired.isMaster, hs.wired.group, hs.wired.server, hs.wired.sockets, Or.inr rfl⟩,
        fun e he => hs.travels e (sentBy_masterSignal _ _ ▸ he), fun _ _ => hcrowns, fun _ => ?_⟩
      have hne : net.lastLive ≠ [] := address_ne_nil (mem_addresses_of_live lastLive_mem)
      simp only [activates, Node.iAmPrimaryMaster, Bool.and_eq_true, decide_eq_true_eq]
      exact ⟨⟨List.mem_append_right _ (List.mem_singleton.mpr rfl),
        ⟨hs.wired.isMaster, by simpa using hne⟩, hown⟩, rfl⟩
    · exact hnamed.symm.trans (hcrowns.2.2.trans hserver.symm)
  · rw [if_neg (fun hclosed => hnew (hcircle.mp hclosed)), ensures_bind]
    refine (good_joinMasterGroup hset _).imp fun _ t ht => ?_
    rw [ensures_bind]
    refine (good_continueTransferProto ht (ready_of_goesRound h)).imp fun _ u hu => ?_
    refine settled_of_good hu fun hcrowns => hnew ?_
    rw [← hcrowns.2.1]
    exact List.mem_of_head? h.request

theorem good_processElection {passed ahead : List Str}
    (h : GoesRound net envelope passed ahead) (hs : Good net envelope.receiver s)
    (hcheck : E .checkFailed ∨ 0 ≤ s.node.fdcsEnv.fdcsTime nowTime) :
    Ensures (processElection pb (net.surroundings envelope.receiver nowTime uninitialised)
        (closedCircle s.node envelope.proto) envelope.proto) s
      (fun _ t => Good net envelope.receiver t) E := by
  have hcircle := closedCircle_iff h.onRing hs.wired.placed
  rw [processElection]
  rcases onRing_cases h.onRing with ⟨rfl, hpassed, _⟩ | ⟨rest, rfl, hnew⟩
  · have hring : net.liveMasters ~r passed := by simpa using h.ring
    rw [if_pos (hcircle.mpr hpassed), ensures_bind, ensures_get]
    dsimp only
    rw [hs.wired.group, Network.trackerGroup,
      splitStringUsing_intercalate_addresses (List.Subset.refl _), h.response, hs.wired.server,
      electionResult_eq_lastLive hring hpassed]
    simp only [ensures_bind, ensures_pure]
    exact good_coordinator hs hcheck
  · rw [if_neg (fun hclosed => hnew (hcircle.mp hclosed)), ensures_bind]
    exact (good_continueTransferProto hs (ready_of_goesRound h)).imp fun _ t ht => ht

theorem good_processAskTracker {passed ahead : List Str}
    (h : GoesRound net envelope passed ahead) (hs : Good net envelope.receiver s)
    (htype : envelope.proto.protocolType = .masterAskTracker)
    (hcheck : E .checkFailed ∨ 0 ≤ s.node.fdcsEnv.fdcsTime nowTime) :
    Ensures (processAskTracker pb (net.surroundings envelope.receiver nowTime uninitialised)
        (closedCircle s.node envelope.proto) envelope.proto) s
      (fun _ t => Good net envelope.receiver t) E := by
  have hcircle := closedCircle_iff h.onRing hs.wired.placed
  have hnamed : envelope.proto.responseResult = [] ∨
      envelope.proto.responseResult = net.lastLive := by
    have := h.truthful
    rwa [Truthful, htype] at this
  rw [processAskTracker, ensures_bind, ensures_get, ensures_bind]
  refine ensures_addPrimaryTime pb _ hcheck fun pairs => ?_
  rcases onRing_cases h.onRing with ⟨_, hpassed, _⟩ | ⟨rest, rfl, hnew⟩
  · rw [if_pos (hcircle.mpr hpassed), ensures_ite]
    refine ⟨fun _ => good_election hs, fun hne => ?_⟩
    have hlast : envelope.proto.responseResult = net.lastLive :=
      hnamed.resolve_left fun hempty => hne (List.isEmpty_iff.mpr hempty)
    have hmem : net.lastLive ∈ net.addresses := mem_addresses_of_live lastLive_mem
    rw [hlast, checkIP, ensures_bind]
    refine ensures_check (Or.inl (decide_eq_true (net.wellFormed _ hmem).2)) fun _ => ?_
    rw [ensures_bind, modifyNode, ensures_modify, ensures_bind]
    have hset : Good net envelope.receiver
        { s with node := { s.node with primarySockaddr := net.lastLive } } :=
      ⟨hs.live, ⟨hs.wired.isMaster, hs.wired.group, hs.wired.server, hs.wired.sockets,
        Or.inr rfl⟩, hs.travels, hs.unsignalled⟩
    refine (ensures_connectMaster_live hset.wired.placed hmem).imp fun _ t ht => ?_
    rw [ensures_bind]
    exact (good_joinMasterGroup (hset.of_connects ht.1) _).imp fun _ u hu => hu
  · have hready : ∀ result, result = [] ∨ result = net.lastLive →
        Ready net envelope.receiver { envelope.proto with
          responseResult := result, keyValuesPairs := pairs } passed rest := by
      intro result hresult
      have := ready_of_goesRound h
      refine ⟨this.ring, this.request, this.response, ?_⟩
      rw [Truthful, htype]
      exact hresult
    rw [if_neg (fun hclosed => hnew (hcircle.mp hclosed))]
    simp only [ensures_ite, ensures_bind, ensures_pure]
    refine ⟨fun _ => ?_, fun _ => ⟨fun _ => good_election hs, fun _ => ?_⟩⟩
    · split_ifs with hempty
      · exact good_continueTransferProto hs (hready _ hnamed)
      · exact good_continueTransferProto hs (hready _ hs.wired.primary)
    · exact good_continueTransferProto hs (hready _ hnamed)

theorem good_processGroupChanged {passed ahead : List Str}
    (h : GoesRound net envelope passed ahead) (hs : Good net envelope.receiver s)
    (htype : envelope.proto.protocolType = .masterGroupChanged) :
    Ensures (do
        if !closedCircle s.node envelope.proto then
          connectOnlineMaster (net.surroundings envelope.receiver nowTime uninitialised)
            envelope.proto.requestArgs
          continueTransferProto (net.surroundings envelope.receiver nowTime uninitialised)
            envelope.proto
        return true) s (fun _ t => Good net envelope.receiver t) E := by
  obtain ⟨online, honline, hargs⟩ : ∃ online, online ⊆ net.addresses ∧
      envelope.proto.requestArgs = [';'].intercalate online := by
    have := h.truthful
    rwa [Truthful, htype] at this
  simp only [ensures_ite, ensures_bind, ensures_pure, Bool.not_eq_true']
  refine ⟨fun hopen => ?_, fun _ => hs⟩
  rw [hargs]
  refine (good_connectOnlineMaster hs honline).imp fun _ t ht => ?_
  rcases onRing_cases h.onRing with ⟨_, hpassed, _⟩ | ⟨rest, rfl, _⟩
  · rw [(closedCircle_iff h.onRing hs.wired.placed).mpr hpassed] at hopen
    cases hopen
  · exact good_continueTransferProto ht (ready_of_goesRound h)

/-- Whatever of the group's traffic reaches a live master, its handler settles. -/
theorem settled_protocolProcess (htravels : Travels net envelope)
    (hs : Good net envelope.receiver s) {socketFd : Int}
    (hcheck : E .checkFailed ∨ 0 ≤ s.node.fdcsEnv.fdcsTime nowTime) :
    Ensures (protocolProcess pb (net.surroundings envelope.receiver nowTime uninitialised)
        socketFd envelope.proto) s (fun _ t => Settled net envelope t) E := by
  rw [protocolProcess, ensures_bind, ensures_get]
  rcases htravels with ⟨passed, ahead, h⟩ | ⟨htype, hrequest, _⟩
  · have htruthful := h.truthful
    rw [Truthful] at htruthful
    have hplain : envelope.proto.protocolType ≠ .coordinator → ¬Crowns envelope :=
      fun hne hcrowns => hne hcrowns.1
    cases htype : envelope.proto.protocolType with
    | election =>
        exact (good_processElection h hs hcheck).imp fun _ t ht =>
          settled_of_good ht (hplain (by rw [htype]; decide))
    | coordinator => exact settled_coordinator h hs htype
    | masterAskTracker =>
        exact (good_processAskTracker h hs htype hcheck).imp fun _ t ht =>
          settled_of_good ht (hplain (by rw [htype]; decide))
    | masterGroupChanged =>
        exact (good_processGroupChanged h hs htype).imp fun _ t ht =>
          settled_of_good ht (hplain (by rw [htype]; decide))
    | _ =>
        rw [htype] at htruthful
        exact htruthful.elim
  · simp only [htype, ensures_bind, ensures_pure]
    refine (ensures_connectMaster_live hs.wired.placed (mem_addresses_of_live hrequest)).imp
      fun _ t ht => ?_
    refine (good_masterGroupChanged (hs.of_connects ht.1)).imp fun _ u hu => ?_
    refine settled_of_good hu fun hcrowns => ?_
    rw [Crowns, htype] at hcrowns
    exact absurd hcrowns.1 (by decide)

end Delivery

section Runs

variable {s s' : State} {a : Action}

/-- The live masters are wired and the messages in flight travel. -/
structure Agreed (net : Network) (s : State) : Prop where
  wired : ∀ master ∈ net.liveMasters, Wired net master (s.masters master)
  travels : ∀ envelope ∈ s.inFlight, Travels net envelope

theorem agreed_initial : Agreed net (initial net) where
  wired master hmaster :=
    { isMaster := rfl
      group := rfl
      server := rfl
      primary := Or.inl rfl
      sockets := by
        intro address fd hfd
        change (OrderedMap.empty.set master _).find? address = some fd at hfd
        rw [OrderedMap.find?_set] at hfd
        split_ifs at hfd with heq
        · subst heq
          exact ⟨hmaster, (Option.some.inj hfd).symm⟩
        · cases hfd }
  travels envelope he := absurd he List.not_mem_nil

theorem receiver_live {envelope : Envelope} (h : Travels net envelope) :
    envelope.receiver ∈ net.liveMasters := by
  rcases h with ⟨passed, ahead, h⟩ | ⟨_, _, hlive⟩
  · refine h.ring.mem_iff.mpr ?_
    rw [List.mem_append, or_comm, ← List.mem_append]
    exact List.mem_of_head? h.receiver
  · exact hlive

theorem good_start (hs : Agreed net s) {master : Str} (hlive : master ∈ net.liveMasters) :
    Good net master { node := s.masters master } where
  live := hlive
  wired := hs.wired master hlive
  travels _ he := absurd he List.not_mem_nil
  unsignalled _ h := absurd h List.not_mem_nil

structure Outcome (net : Network) (s : State) (a : Action) (master : Str) (t : Handling) :
    Prop where
  wired : Wired net master t.node
  travels : ∀ envelope ∈ sentBy net master t.effects, Travels net envelope
  activates_of_returned : ∀ m, returnedBy s a = some (m, m) → m = master ∧ activates t = true
  returned_of_activates : 2 ≤ net.liveMasters.length → activates t = true →
    returnedBy s a = some (master, master)

theorem masterSignal_of_activates {t : Handling} (h : activates t = true) :
    Effect.masterSignal ∈ t.effects := by
  rw [activates, Bool.and_eq_true, Bool.and_eq_true, decide_eq_true_eq] at h
  exact h.1.1

theorem returnedBy_deliver {index : Nat} {socketFd : Int} {envelope : Envelope} {m : Str}
    (hget : s.inFlight[index]? = some envelope) :
    returnedBy s (.deliver index socketFd nowTime uninitialised) = some (m, m) ↔
      m = envelope.receiver ∧ Crowns envelope := by
  simp only [returnedBy, hget, Crowns, Option.ite_none_right_eq_some, Option.some.injEq,
    Prod.mk.injEq]
  constructor
  · rintro ⟨⟨htype, hrequest⟩, rfl, hresult⟩
    exact ⟨rfl, htype, hrequest, hresult⟩
  · rintro ⟨rfl, htype, hrequest, hresult⟩
    exact ⟨⟨htype, hrequest⟩, rfl, hresult⟩

def actionTime : Action → Int
  | .askTracker _ nowTime _ => nowTime
  | .deliver _ _ nowTime _ => nowTime

theorem ensures_handlerOf (hs : Agreed net s) {master : Str} {handler : Handler Bool}
    {left : List Envelope} (hhandler : handlerOf pb net s a = some (master, handler, left))
    (hcheck : E .checkFailed ∨ 0 ≤ (s.masters master).fdcsEnv.fdcsTime (actionTime a)) :
    master ∈ net.liveMasters ∧ left ⊆ s.inFlight ∧
      Ensures handler { node := s.masters master } (fun _ t => Outcome net s a master t) E := by
  cases a with
  | askTracker caller nowTime uninitialised =>
      simp only [handlerOf, Option.ite_none_right_eq_some, Option.some.injEq, Prod.mk.injEq]
        at hhandler
      obtain ⟨hlive, rfl, rfl, rfl⟩ := hhandler
      refine ⟨hlive, List.Subset.refl _, ?_⟩
      refine (good_askTracker (good_start hs hlive)).imp fun _ t ht =>
        ⟨ht.wired, ht.travels, fun _ h => ?_, fun hmany h => ?_⟩
      · cases h
      · exact absurd (masterSignal_of_activates h) (ht.unsignalled hmany)
  | deliver index socketFd nowTime uninitialised =>
      rw [handlerOf, Option.map_eq_some_iff] at hhandler
      obtain ⟨envelope, hget, heq⟩ := hhandler
      obtain ⟨rfl, hrest⟩ := Prod.mk.inj heq
      obtain ⟨rfl, rfl⟩ := Prod.mk.inj hrest
      have htravels := hs.travels envelope (List.mem_of_getElem? hget)
      have hlive := receiver_live htravels
      refine ⟨hlive, List.eraseIdx_subset, ?_⟩
      refine (settled_protocolProcess htravels (good_start hs hlive) hcheck).imp fun _ t ht =>
        ⟨ht.wired, ht.travels, ?_, ?_⟩
      · intro m h
        obtain ⟨hm, hcrowns⟩ := (returnedBy_deliver hget).mp h
        exact ⟨hm, ht.activated hcrowns⟩
      · intro hmany h
        have hcrowns := ht.signalled hmany (masterSignal_of_activates h)
        exact (returnedBy_deliver hget).mpr ⟨rfl, hcrowns⟩

theorem step_spec (hs : Agreed net s) (h : step pb net s a = some s') :
    ∃ master t left, master ∈ net.liveMasters ∧ left ⊆ s.inFlight ∧ Outcome net s a master t ∧
      s' =
        { masters := Function.update s.masters master t.node
          inFlight := left ++ sentBy net master t.effects
          activated := if activates t then s.activated ++ [master] else s.activated
          returned := s.returned ++ (returnedBy s a).toList } := by
  rw [step] at h
  cases hhandler : handlerOf pb net s a with
  | none =>
      rw [hhandler] at h
      cases h
  | some what =>
      obtain ⟨master, handler, left⟩ := what
      simp only [hhandler] at h
      obtain ⟨hlive, hleft, hensures⟩ :=
        ensures_handlerOf (E := fun _ => True) hs hhandler (Or.inl trivial)
      cases hrun : handler.run { node := s.masters master } with
      | error e =>
          rw [hrun] at h
          cases h
      | ok r =>
          rw [hrun] at h
          exact ⟨master, r.2, left, hlive, hleft, hensures.of_run_eq_ok hrun,
            (Option.some.inj h).symm⟩

theorem agreed_step (hs : Agreed net s) (h : step pb net s a = some s') : Agreed net s' := by
  obtain ⟨master, t, left, hlive, hleft, hout, rfl⟩ := step_spec hs h
  constructor
  · intro other hother
    rcases eq_or_ne other master with rfl | hne
    · simpa using hout.wired
    · simpa [Function.update_of_ne hne] using hs.wired other hother
  · intro envelope he
    rcases List.mem_append.mp he with hold | hnew
    · exact hs.travels envelope (hleft hold)
    · exact hout.travels envelope hnew

theorem agreed_run {as : List Action} (hrun : run (step pb net) (initial net) as = some s) :
    Agreed net s :=
  invariant (fun _ _ _ hs h => agreed_step hs h) agreed_initial hrun

/-- While no master's clock is negative, every heart beat and every delivery is
handled to its end. -/
theorem step_isSome (hs : Agreed net s)
    (hclock : ∀ master ∈ net.liveMasters, 0 ≤ (s.masters master).fdcsEnv.fdcsTime (actionTime a))
    (henabled : (handlerOf pb net s a).isSome) : (step pb net s a).isSome := by
  obtain ⟨⟨master, handler, left⟩, hhandler⟩ := Option.isSome_iff_exists.mp henabled
  have hlive := (ensures_handlerOf (E := fun _ => True) hs hhandler (Or.inl trivial)).1
  obtain ⟨_, _, hensures⟩ :=
    ensures_handlerOf (E := fun _ => False) hs hhandler (Or.inr (hclock master hlive))
  obtain ⟨r, hrun, _⟩ := hensures.returns
  simp [step, hhandler, hrun]

/-- A live master knows no primary or the last live master, so no two masters
are primary together. -/
theorem primary_is_lastLive {as : List Action}
    (hrun : run (step pb net) (initial net) as = some s) :
    (∀ master ∈ net.liveMasters, (s.masters master).primarySockaddr = [] ∨
        (s.masters master).primarySockaddr = net.lastLive) ∧
      ∀ master ∈ net.liveMasters, ∀ other ∈ net.liveMasters,
        (s.masters master).iAmPrimaryMaster = true → (s.masters other).iAmPrimaryMaster = true →
          master = other := by
  have hs := agreed_run hrun
  have hlast : ∀ master ∈ net.liveMasters, (s.masters master).iAmPrimaryMaster = true →
      master = net.lastLive := by
    intro master hlive hprimary
    have hwired := hs.wired master hlive
    simp only [Node.iAmPrimaryMaster, Bool.and_eq_true, decide_eq_true_eq, Bool.not_eq_true',
      List.isEmpty_eq_false_iff] at hprimary
    obtain ⟨⟨_, hne⟩, hself⟩ := hprimary
    rw [← hwired.server, ← hself]
    exact hwired.primary.resolve_left hne
  refine ⟨fun master hlive => (hs.wired master hlive).primary, ?_⟩
  intro master hmaster other hother hp hp'
  rw [hlast master hmaster hp, hlast other hother hp']

def groupOfThree (live : Str → Bool)
    (h : ["10.0.0.1:1".toList, "10.0.0.2:1".toList, "10.0.0.3:1".toList].filter live ≠ []) :
    Network where
  addresses := ["10.0.0.1:1".toList, "10.0.0.2:1".toList, "10.0.0.3:1".toList]
  live := live
  descriptor _ b :=
    ["10.0.0.1:1".toList, "10.0.0.2:1".toList, "10.0.0.3:1".toList].idxOf b + 1
  distinct := by decide
  wellFormed := by decide
  noSubstring := by decide
  someLive := h
  descriptor_injective _ := by decide
  descriptor_pos _ _ := by omega

def twoOfThree : Network := groupOfThree (· ≠ "10.0.0.2:1".toList) (by decide)

/-- The first master asks for the primary, elects and announces the winner,
while the last one asks as well. -/
def electionRun : List Action :=
  [.askTracker "10.0.0.1:1".toList 100 0, .askTracker "10.0.0.3:1".toList 100 0] ++
    List.replicate 12 (.deliver 0 1 101 0)

theorem electionRun_runs :
    (run (step plainProtobuf twoOfThree) (initial twoOfThree) electionRun).isSome = true := by
  decide +kernel

theorem electionRun_has_one_primary :
    ∃ s, run (step plainProtobuf twoOfThree) (initial twoOfThree) electionRun = some s ∧
      ∀ master ∈ twoOfThree.liveMasters, ∀ other ∈ twoOfThree.liveMasters,
        (s.masters master).iAmPrimaryMaster = true → (s.masters other).iAmPrimaryMaster = true →
          master = other := by
  obtain ⟨s, hrun⟩ := Option.isSome_iff_exists.mp electionRun_runs
  exact ⟨s, hrun, (primary_is_lastLive hrun).2⟩

end Runs

end FastDCS.Agreement
