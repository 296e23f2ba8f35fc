import FastDCS.TimeStamps
import FastDCS.Worker

/-!
Agreement on the time: when the nodes of a group have the time of the primary
after an announcement, or after the answer to a question for the primary.
-/

namespace FastDCS.ClusterTime

open FastDCS.Strings
open FastDCS.Messages
open FastDCS.Handlers
open FastDCS.Runs
open FastDCS.Tracker
open FastDCS.Master
open FastDCS.Cluster
open FastDCS.Rings
open FastDCS.Election
open FastDCS.Agreement
open FastDCS.TimeStamps
open List (IsRotated)

/-- One of the messages in flight arrives. -/
structure Arrival where
  index : Nat
  socketFd : Int
  uninitialised : Int

/-- Messages take no time: while they go round, the local clock of every master
stands at `clock`. -/
def step (pb : Protobuf) (net : Network) (clock : Str → Int) (s : State) (arrival : Arrival) :
    Option State :=
  s.inFlight[arrival.index]?.bind fun envelope =>
    Cluster.step pb net s (.deliver arrival.index arrival.socketFd (clock envelope.receiver)
      arrival.uninitialised)

/-- `FdcsTime()` of a master, so much later. -/
def timeAt (clock : Str → Int) (masters : Str → Node) (master : Str) (later : Int) : Int :=
  (masters master).fdcsEnv.fdcsTime (clock master + later)

/-- From now on the masters have the same time as the given one. -/
def SameTime (clock : Str → Int) (masters : Str → Node) (master primary : Str) : Prop :=
  ∀ later, timeAt clock masters master later = timeAt clock masters primary later

section Steps

variable {pb : Protobuf} {net : Network} {clock : Str → Int} {s s' : State} {arrival : Arrival}

/-- A handler of the master ended in `t`, and what it sent comes to the messages
left in flight. -/
structure Handles (net : Network) (master : Str) (left : List Envelope) (t : Handling)
    (s s' : State) : Prop where
  masters : s'.masters = Function.update s.masters master t.node
  inFlight : s'.inFlight = left ++ sentBy net master t.effects

/-- The arrival delivers the envelope, and its receiver's handler ends in `t`. -/
structure Delivers (pb : Protobuf) (net : Network) (clock : Str → Int) (arrival : Arrival)
    (envelope : Envelope) (t : Handling) (s s' : State) : Prop
    extends Handles net envelope.receiver (s.inFlight.eraseIdx arrival.index) t s s' where
  delivered : s.inFlight[arrival.index]? = some envelope
  runs : ∃ ok, (protocolProcess pb (net.surroundings envelope.receiver (clock envelope.receiver)
    arrival.uninitialised) arrival.socketFd envelope.proto).run
      { node := s.masters envelope.receiver } = .ok (ok, t)
  returned : s'.returned = s.returned ++
    (if envelope.proto.protocolType = .coordinator ∧
        envelope.proto.requestSockAddr = envelope.receiver then
      [(envelope.receiver, envelope.proto.responseResult)]
    else [])

theorem step_cases (h : step pb net clock s arrival = some s') :
    ∃ envelope t, Delivers pb net clock arrival envelope t s s' := by
  obtain ⟨envelope, hget, hstep⟩ := Option.bind_eq_some_iff.mp h
  simp only [Cluster.step, handlerOf, hget, Option.map_some] at hstep
  cases hrun : (protocolProcess pb (net.surroundings envelope.receiver (clock envelope.receiver)
      arrival.uninitialised) arrival.socketFd envelope.proto).run
        { node := s.masters envelope.receiver } with
  | error fault =>
      rw [hrun] at hstep
      cases hstep
  | ok result =>
      rw [hrun] at hstep
      cases hstep
      refine ⟨envelope, result.2, ⟨rfl, rfl⟩, hget, ⟨result.1, hrun⟩, ?_⟩
      simp only [returnedBy, hget]
      split_ifs
      · rfl
      · rfl

variable {envelope : Envelope} {t : Handling}

theorem Delivers.ensured (h : Delivers pb net clock arrival envelope t s s')
    {Q : Handling → Prop} {E : Fault → Prop}
    (hspec : Ensures (protocolProcess pb (net.surroundings envelope.receiver
      (clock envelope.receiver) arrival.uninitialised) arrival.socketFd envelope.proto)
      { node := s.masters envelope.receiver } (fun _ t => Q t) E) : Q t := by
  obtain ⟨ok, hrun⟩ := h.runs
  exact hspec.of_run_eq_ok hrun

theorem timeAt_zero (clock : Str → Int) (masters : Str → Node) (master : Str) :
    timeAt clock masters master 0 = (masters master).fdcsEnv.fdcsTime (clock master) := by
  rw [timeAt, Int.add_zero]

theorem timeAt_update {masters : Str → Node} {receiver : Str} {node : Node} (master : Str)
    (later : Int) :
    timeAt clock (Function.update masters receiver node) master later =
      if master = receiver then node.fdcsEnv.fdcsTime (clock receiver + later)
      else timeAt clock masters master later := by
  rw [timeAt]
  split_ifs with heq
  · rw [heq, Function.update_self]
  · rw [Function.update_of_ne heq]
    rfl

/-- What a handler leaves of its node it leaves of all nodes. -/
theorem update_kept {γ : Type} {f : Node → γ} {masters : Str → Node} {master : Str}
    {node : Node} (h : f node = f (masters master)) (other : Str) :
    f (Function.update masters master node other) = f (masters other) := by
  rcases eq_or_ne other master with rfl | hne
  · rw [Function.update_self, h]
  · rw [Function.update_of_ne hne]

/-- The decisive messages left when one message is taken out. -/
theorem filter_decisive_eraseIdx {inFlight : List Envelope} {index : Nat} {envelope : Envelope}
    (hget : inFlight[index]? = some envelope) (ruling : Option Envelope)
    (hruling : inFlight.filter decisive = ruling.toList) :
    (decisive envelope = true ∧ ruling = some envelope ∧
        (inFlight.eraseIdx index).filter decisive = []) ∨
      (¬decisive envelope = true ∧
        (inFlight.eraseIdx index).filter decisive = ruling.toList) := by
  obtain ⟨hlt, rfl⟩ := List.getElem?_eq_some_iff.mp hget
  have hperm := (List.getElem_cons_eraseIdx_perm hlt).filter decisive
  rw [hruling] at hperm
  by_cases hdecisive : decisive inFlight[index] = true
  · rw [List.filter_cons_of_pos hdecisive] at hperm
    cases ruling with
    | none => exact absurd hperm.length_eq (by simp)
    | some other =>
        have hsingle := List.perm_singleton.mp hperm
        obtain ⟨rfl, hnone⟩ := List.cons.inj hsingle
        exact Or.inl ⟨hdecisive, rfl, hnone⟩
  · rw [List.filter_cons_of_neg hdecisive] at hperm
    refine Or.inr ⟨hdecisive, ?_⟩
    cases ruling with
    | none => exact List.perm_nil.mp hperm
    | some other => exact List.perm_singleton.mp hperm

/-- The live masters are in place, and only decisive messages and notices are on
their way. -/
structure Underway (net : Network) (s : State) : Prop where
  placed : ∀ master ∈ net.liveMasters, Placed net master (s.masters master)
  known : ∀ envelope ∈ s.inFlight, envelope.receiver ∈ net.liveMasters ∧
    (decisive envelope = true ∨ notice envelope = true)

theorem receiver_live_of_mem_sentBy {master : Str} {effects : List Effect} {envelope : Envelope}
    (h : envelope ∈ sentBy net master effects) : envelope.receiver ∈ net.liveMasters := by
  obtain ⟨effect, _, hsent⟩ := List.mem_filterMap.mp h
  cases effect with
  | send fd proto =>
      obtain ⟨receiver, hfind, rfl⟩ := Option.map_eq_some_iff.mp hsent
      exact List.mem_of_find?_eq_some hfind
  | _ => cases hsent

theorem Underway.handles (hs : Underway net s) {master : Str} {left : List Envelope}
    (h : Handles net master left t s s') (hleft : left ⊆ s.inFlight)
    (hplaced : Placed net master t.node) {ruling : Option Envelope}
    (hsends : Sends net master ruling { node := s.masters master } t) :
    Underway net s' ∧
      s'.inFlight.filter decisive = left.filter decisive ++ ruling.toList := by
  obtain ⟨sent, hsent, hruling, hknown⟩ := hsends.sends
  rw [List.nil_append] at hsent
  refine ⟨⟨fun other hother => ?_, fun envelope hmem => ?_⟩, ?_⟩
  · rw [h.masters]
    rcases eq_or_ne other master with rfl | hne
    · rw [Function.update_self]
      exact hplaced
    · rw [Function.update_of_ne hne]
      exact hs.placed other hother
  · rw [h.inFlight, hsent] at hmem
    rcases List.mem_append.mp hmem with hold | hnew
    · exact hs.known envelope (hleft hold)
    · exact ⟨receiver_live_of_mem_sentBy hnew, hknown envelope hnew⟩
  · rw [h.inFlight, hsent, List.filter_append, hruling]

/-- After the delivery of the only decisive message there is the one that its
receiver has sent, or none. -/
theorem Underway.rules (hs : Underway net s) {master : Str} {left : List Envelope}
    (h : Handles net master left t s s') (hleft : left ⊆ s.inFlight)
    (hnone : left.filter decisive = []) (hplaced : Placed net master t.node)
    {ruling : Option Envelope}
    (hsends : Sends net master ruling { node := s.masters master } t) :
    Underway net s' ∧ s'.inFlight.filter decisive = ruling.toList := by
  obtain ⟨hunderway, hfilter⟩ := hs.handles h hleft hplaced hsends
  rw [hnone] at hfilter
  exact ⟨hunderway, hfilter⟩

/-- A step that leaves the decisive messages, the times, the beliefs about the
primary and the messages that came back as they are. -/
structure Steady (s s' : State) : Prop where
  ruling : s'.inFlight.filter decisive = s.inFlight.filter decisive
  fdcsEnv : ∀ master, (s'.masters master).fdcsEnv = (s.masters master).fdcsEnv
  primary : ∀ master, (s'.masters master).primarySockaddr = (s.masters master).primarySockaddr
  returned : s'.returned = s.returned

theorem Steady.timeAt_eq (h : Steady s s') (clock : Str → Int) :
    timeAt clock s'.masters = timeAt clock s.masters := by
  funext master later
  rw [timeAt, h.fdcsEnv, timeAt]

/-- The step delivers a notice, or the one decisive message under way. -/
theorem Underway.step_cases (hs : Underway net s) (ruling : Option Envelope)
    (hruling : s.inFlight.filter decisive = ruling.toList)
    (h : step pb net clock s arrival = some s') :
    (Underway net s' ∧ Steady s s') ∨
      ∃ envelope t, ruling = some envelope ∧ envelope.receiver ∈ net.liveMasters ∧
        (s.inFlight.eraseIdx arrival.index).filter decisive = [] ∧
        Delivers pb net clock arrival envelope t s s' := by
  obtain ⟨envelope, t, hdelivers⟩ := ClusterTime.step_cases h
  obtain ⟨hlive, hknown⟩ := hs.known envelope (List.mem_of_getElem? hdelivers.delivered)
  rcases filter_decisive_eraseIdx hdelivers.delivered ruling hruling with
    ⟨_, hone, hnone⟩ | ⟨hnot, hleft⟩
  · exact Or.inr ⟨envelope, t, hone, hlive, hnone, hdelivers⟩
  · have hnotice : notice envelope = true := hknown.resolve_left hnot
    have hidles := hdelivers.ensured
      (idle_protocolProcess hnotice arrival.socketFd _ (hs.placed _ hlive))
    obtain ⟨hunderway, hfilter⟩ :=
      hs.handles hdelivers.toHandles List.eraseIdx_subset hidles.placed hidles.sends
    refine Or.inl ⟨hunderway, ?_, fun master => ?_, fun master => ?_, ?_⟩
    · rw [hfilter, hleft, hruling]
      exact List.append_nil _
    · rw [hdelivers.masters]
      exact update_kept hidles.fdcsEnv master
    · rw [hdelivers.masters]
      exact update_kept hidles.primary master
    · rw [hdelivers.returned, if_neg, List.append_nil]
      rintro ⟨htype, _⟩
      rw [notice, htype] at hnotice
      cases hnotice

end Steps

/-- An election ends at the initiator, which announces the winner, and the
announcement comes back to it. The times are numbers of 32 bits, as `FdcsTime`
returns them. -/
structure Announcement (pb : Protobuf) where
  net : Network
  clock : Str → Int
  masters : Str → Node
  initiator : Str
  winner : Str
  election : TrackerProtocol
  arrivals : List Arrival
  last : State
  placed : ∀ master ∈ net.liveMasters, Placed net master (masters master)
  int32 : ∀ master ∈ net.liveMasters, timeAt clock masters master 0 < 2 ^ 31
  initiator_live : initiator ∈ net.liveMasters
  winner_live : winner ∈ net.liveMasters
  isElection : election.protocolType = .election
  closes : closedCircle (masters initiator) election = true
  elects : electionResult net.addresses (election.responseSockAddr ++ ';' :: initiator) =
    some winner
  runs : run (step pb net clock) { masters := masters, inFlight := [⟨initiator, election⟩] }
    arrivals = some last
  returned : (initiator, winner) ∈ last.returned

namespace Announcement

variable {pb : Protobuf}

/-- Every live master has the time of the winner. -/
def Agrees (a : Announcement pb) : Prop :=
  ∀ master ∈ a.net.liveMasters, SameTime a.clock a.last.masters master a.winner

def initiatorTime (a : Announcement pb) : Int := timeAt a.clock a.masters a.initiator 0

/-- The time of the winner when the announcement is back. -/
def winnerTime (a : Announcement pb) : Int :=
  if a.initiator = a.winner then a.clock a.winner else timeAt a.clock a.masters a.winner 0

/-- The announcement is on its way: the masters it has passed have the time of
the initiator. -/
structure Announcing (a : Announcement pb) (envelope : Envelope) (passed ahead : List Str)
    (s : State) : Prop where
  ruling : s.inFlight.filter decisive = [envelope]
  round : OnRing a.net envelope passed ahead
  started : passed.head? = some a.initiator
  many : ∃ other ∈ a.net.liveMasters, other ≠ a.initiator
  protocolType : envelope.proto.protocolType = .coordinator
  result : envelope.proto.responseResult = a.winner
  carries : Carries pb a.initiatorTime envelope.proto
  times : ∀ master ∈ a.net.liveMasters, timeAt a.clock s.masters master 0 =
    if master ∈ passed ∧ master ≠ a.winner then a.initiatorTime
    else timeAt a.clock a.masters master 0
  returned : s.returned = []

/-- How far the announcement has come. -/
inductive Phase (a : Announcement pb) (s : State) : Prop where
  | elected (masters : s.masters = a.masters)
      (inFlight : s.inFlight = [⟨a.initiator, a.election⟩]) (returned : s.returned = [])
  | announcing (envelope : Envelope) (passed ahead : List Str)
      (announcing : a.Announcing envelope passed ahead s)
  | announced (ruling : s.inFlight.filter decisive = [])
      (many : ∃ other ∈ a.net.liveMasters, other ≠ a.initiator)
      (times : ∀ master ∈ a.net.liveMasters, timeAt a.clock s.masters master 0 =
        if master = a.winner then a.winnerTime else a.initiatorTime)
  | lost (ruling : s.inFlight.filter decisive = []) (returned : s.returned = [])

variable {a : Announcement pb} {s s' : State} {arrival : Arrival}

/-- The announcement is back: a winner that has announced itself goes back to
its own clock. -/
theorem Announcing.closes {envelope : Envelope} {passed : List Str} {t : Handling}
    (ha : a.Announcing envelope passed [] s) (hs : Underway a.net s)
    (hpassed : envelope.receiver ∈ passed) (hlive : envelope.receiver ∈ a.net.liveMasters)
    (hback : envelope.proto.requestSockAddr = envelope.receiver)
    (hnone : (s.inFlight.eraseIdx arrival.index).filter decisive = [])
    (h : Delivers pb a.net a.clock arrival envelope t s s') :
    Underway a.net s' ∧ a.Phase s' := by
  have hplaced := hs.placed _ hlive
  have hclosed := (closedCircle_iff ha.round hplaced).mpr hpassed
  obtain ⟨hplaced', henv, hsends⟩ := h.ensured
    ((ensures_protocolProcess_coordinator ha.protocolType hclosed).mpr
      (ensures_processCoordinator_closed hplaced envelope.proto))
  obtain ⟨hunderway, hruling⟩ :=
    hs.rules h.toHandles List.eraseIdx_subset hnone hplaced' hsends
  refine ⟨hunderway, .announced hruling ha.many fun master hmaster => ?_⟩
  have hreceiver : envelope.receiver = a.initiator := by
    rw [← hback]
    exact Option.some.inj (ha.round.request.symm.trans ha.started)
  have hring : a.net.liveMasters ~r passed := by simpa using ha.round.ring
  have hold := ha.times master hmaster
  simp only [hring.mem_iff.mp hmaster, true_and] at hold
  rw [ha.result, hreceiver] at henv
  rw [h.masters, timeAt_update, hreceiver]
  split_ifs with hinitiator hwinner hwinner
  · have hown : a.initiator = a.winner := hinitiator.symm.trans hwinner
    rw [if_pos hown.symm] at henv
    rw [henv, winnerTime, if_pos hown, hown]
    simp [Enviroment.fdcsTime, Enviroment.initFdcsTimeDiffer]
  · rw [if_neg fun hown => hwinner (hinitiator.trans hown.symm)] at henv
    rw [if_pos hwinner] at hold
    rw [← hold, henv, timeAt, hinitiator]
  · have hother : a.initiator ≠ a.winner := fun hown => hinitiator (hwinner.trans hown.symm)
    rw [hold, winnerTime, if_neg hother, hwinner, if_neg fun hne => hne rfl]
  · rw [hold, if_pos hwinner]

/-- The next master takes the time over, unless it is the winner. -/
theorem Announcing.passes {envelope : Envelope} {passed ahead : List Str} {t : Handling}
    (ha : a.Announcing envelope passed (envelope.receiver :: ahead) s) (hs : Underway a.net s)
    (hnew : envelope.receiver ∉ passed) (hlive : envelope.receiver ∈ a.net.liveMasters)
    (hnone : (s.inFlight.eraseIdx arrival.index).filter decisive = [])
    (h : Delivers pb a.net a.clock arrival envelope t s s') :
    Underway a.net s' ∧ a.Phase s' := by
  have hplaced := hs.placed _ hlive
  obtain ⟨hplaced', henv, hannounces⟩ := h.ensured
    ((ensures_protocolProcess_coordinator ha.protocolType
      (closedCircle_eq_false ha.round hplaced hnew)).mpr
        (ensures_processCoordinator_open hplaced (inHand_of_onRing ha.round) ha.protocolType
          (ha.result ▸ a.winner_live) ha.carries))
  have hkept : s'.returned = [] := by
    rw [h.returned, ha.returned, if_neg, List.nil_append]
    rintro ⟨_, hrequest⟩
    rw [← hrequest] at hnew
    exact hnew (List.mem_of_head? ha.round.request)
  have hrules : ∀ {ruling : Option Envelope},
      Sends a.net envelope.receiver ruling { node := s.masters envelope.receiver } t →
        Underway a.net s' ∧ s'.inFlight.filter decisive = ruling.toList := fun hsends =>
    hs.rules h.toHandles List.eraseIdx_subset hnone hplaced' hsends
  rw [ha.result] at henv hannounces
  rcases hannounces with hsends | ⟨sent, hsends, hround, htype, hresult, hcarries⟩
  · exact ⟨(hrules hsends).1, .lost (hrules hsends).2 hkept⟩
  · refine ⟨(hrules hsends).1, .announcing sent (passed ++ [envelope.receiver]) ahead
      ⟨(hrules hsends).2, hround, List.mem_head?_append_of_mem_head? ha.started, ha.many, htype,
        hresult, hcarries, ?_, hkept⟩⟩
    intro master hmaster
    have hold := ha.times master hmaster
    rw [h.masters, timeAt_update]
    rcases eq_or_ne master envelope.receiver with rfl | hne
    · rw [if_neg fun h => hnew h.1] at hold
      rw [if_pos rfl, henv]
      split_ifs with hwinner hpassed hpassed
      · exact absurd hwinner.symm hpassed.2
      · exact hold
      · simp [Enviroment.fdcsTime, Enviroment.calcFdcsTimeDiffer]
      · exact absurd ⟨List.mem_append_right _ (List.mem_singleton.mpr rfl),
          fun hown => hwinner hown.symm⟩ hpassed
    · rw [if_neg hne, hold]
      simp [hne]

theorem Announcing.step {envelope : Envelope} {passed ahead : List Str}
    (ha : a.Announcing envelope passed ahead s) (hs : Underway a.net s)
    (h : step pb a.net a.clock s arrival = some s') : Underway a.net s' ∧ a.Phase s' := by
  rcases hs.step_cases (some envelope) ha.ruling h with ⟨hunderway, hsteady⟩ |
    ⟨delivered, t, heq, hlive, hnone, hdelivers⟩
  · exact ⟨hunderway, .announcing envelope passed ahead
      { ha with
        ruling := hsteady.ruling.trans ha.ruling
        times := by rw [hsteady.timeAt_eq]; exact ha.times
        returned := hsteady.returned.trans ha.returned }⟩
  · obtain rfl := Option.some.inj heq
    rcases onRing_cases ha.round with ⟨rfl, hpassed, hback⟩ | ⟨rest, rfl, hnew⟩
    · exact ha.closes hs hpassed hlive hback hnone hdelivers
    · exact ha.passes hs hnew hlive hnone hdelivers

end Announcement

end FastDCS.ClusterTime
