import FastDCS.ClusterTime
import FastDCS.RingTraffic
import FastDCS.Worker

/-!
Agreement on the time, for those who ask: what a master and a worker take over
with the answer to their question for the primary, and what an answer without
a record of the time does to them.
-/

namespace FastDCS.AskedTime

open FastDCS.Strings
open FastDCS.Messages
open FastDCS.Handlers
open FastDCS.Runs
open FastDCS.Tracker
open FastDCS.Master
open FastDCS.Connections
open FastDCS.Cluster
open FastDCS.Rings
open FastDCS.Election
open FastDCS.Agreement
open FastDCS.TimeStamps
open FastDCS.ClusterTime
open FastDCS.GroupWalk (Member)
open FastDCS.RingTraffic (goesRound weight cost cost_append weight_election weight_coordinator
  weight_masterJoinGroup weight_masterGroupChanged costs_protocolProcess)
open List (IsRotated)

section Unasked

variable {pb : Protobuf} {net : Network} {clock : Str → Int} {s s' : State} {arrival : Arrival}

/-- The live masters are members of the group, and only messages that go round
are on their way. -/
structure Rounds (net : Network) (s : State) : Prop where
  member : ∀ master ∈ net.liveMasters, Member net.addresses master (s.masters master)
  known : ∀ envelope ∈ s.inFlight, envelope.receiver ∈ net.liveMasters ∧
    goesRound envelope.proto.protocolType = true

/-- No question for the primary is under way. -/
structure Unasked (net : Network) (s : State) : Prop where
  rounds : Rounds net s
  unasked : ∀ envelope ∈ s.inFlight, envelope.proto.protocolType ≠ .masterAskTracker

theorem goesRound_eq (envelope : Envelope) :
    goesRound envelope.proto.protocolType = (decisive envelope || notice envelope) := by
  rw [decisive, notice]
  cases envelope.proto.protocolType <;> rfl

theorem rounds_of_underway (hs : Underway net s) : Rounds net s where
  member master hmaster :=
    have hplaced := hs.placed master hmaster
    ⟨hplaced.isMaster, hplaced.server, split_trackerGroup hplaced⟩
  known envelope hmem := by
    obtain ⟨hlive, hknown⟩ := hs.known envelope hmem
    rw [goesRound_eq, Bool.or_eq_true]
    exact ⟨hlive, hknown⟩

theorem decisive_of_asks {envelope : Envelope}
    (h : envelope.proto.protocolType = .masterAskTracker) : decisive envelope = true := by
  rw [decisive, h]

theorem unasked_of_underway (hs : Underway net s)
    (h : ∀ envelope ∈ s.inFlight.filter decisive,
      envelope.proto.protocolType ≠ .masterAskTracker) : Unasked net s := by
  refine ⟨rounds_of_underway hs, fun envelope hmem htype => ?_⟩
  exact h envelope (List.mem_filter.mpr ⟨hmem, decisive_of_asks htype⟩) htype

theorem weight_le_cost {addresses : List Str} {effects : List Effect} {fd : Int}
    {proto : TrackerProtocol} (h : Effect.send fd proto ∈ effects) :
    weight addresses proto ≤ cost addresses effects := by
  obtain ⟨sent, more, rfl⟩ := List.append_of_mem h
  rw [cost_append]
  have hcons : cost addresses (.send fd proto :: more) =
      weight addresses proto + cost addresses more := rfl
  omega

/-- The weight of a question is more than the handling of any other message may
send. -/
theorem weight_lt_of_asks {addresses : List Str} {handled sent : TrackerProtocol}
    (hround : goesRound handled.protocolType = true)
    (hother : handled.protocolType ≠ .masterAskTracker)
    (hsent : sent.protocolType = .masterAskTracker) :
    weight addresses handled - 1 < weight addresses sent := by
  have hbound : (addresses.length + 1) * (addresses.length + 3) + addresses.length + 2 ≤
      weight addresses sent := by
    simp only [weight, hsent]
    omega
  suffices hle : weight addresses handled ≤
      (addresses.length + 1) * (addresses.length + 3) + addresses.length + 2 by omega
  cases htype : handled.protocolType with
  | election => exact (weight_election htype).trans (by omega)
  | coordinator => exact (weight_coordinator htype).trans (by omega)
  | masterJoinGroup => exact (weight_masterJoinGroup htype).le.trans (by omega)
  | masterGroupChanged => exact (weight_masterGroupChanged htype).trans (by omega)
  | masterAskTracker => exact absurd htype hother
  | _ =>
      rw [htype] at hround
      cases hround

theorem mem_effects_of_mem_sentBy {master : Str} {effects : List Effect} {envelope : Envelope}
    (h : envelope ∈ sentBy net master effects) : ∃ fd, .send fd envelope.proto ∈ effects := by
  obtain ⟨effect, heffect, hsent⟩ := List.mem_filterMap.mp h
  cases effect with
  | send fd proto =>
      obtain ⟨receiver, _, rfl⟩ := Option.map_eq_some_iff.mp hsent
      exact ⟨fd, heffect⟩
  | _ => cases hsent

/-- Neither another message nor a question that has passed its receiver before
makes a master ask one. -/
theorem unasked_of_step (hs : Rounds net s)
    (hleft : ∀ envelope ∈ s.inFlight.eraseIdx arrival.index,
      envelope.proto.protocolType ≠ .masterAskTracker)
    (hback : ∀ envelope, s.inFlight[arrival.index]? = some envelope →
      envelope.proto.protocolType = .masterAskTracker →
        contains envelope.proto.responseSockAddr envelope.receiver = true)
    (h : step pb net clock s arrival = some s') : Unasked net s' := by
  obtain ⟨envelope, t, hdelivers⟩ := step_cases h
  obtain ⟨hlive, hround⟩ := hs.known envelope (List.mem_of_getElem? hdelivers.delivered)
  obtain ⟨hmember, sent, hsent, hcost, hcontinues⟩ := hdelivers.ensured
    (costs_protocolProcess net.distinct (mem_addresses_of_live hlive) le_rfl hround
      arrival.socketFd _ (hs.member _ hlive))
  rw [List.nil_append] at hsent
  have hinFlight := hdelivers.inFlight
  rw [hsent] at hinFlight
  refine ⟨⟨fun master hmaster => ?_, fun other hmem => ?_⟩, fun other hmem htype => ?_⟩
  · rw [hdelivers.masters]
    rcases eq_or_ne master envelope.receiver with rfl | hne
    · rw [Function.update_self]
      exact hmember
    · rw [Function.update_of_ne hne]
      exact hs.member master hmaster
  · rw [hinFlight] at hmem
    rcases List.mem_append.mp hmem with hold | hnew
    · exact hs.known other (List.mem_of_mem_eraseIdx hold)
    · obtain ⟨fd, hsend⟩ := mem_effects_of_mem_sentBy hnew
      exact ⟨receiver_live_of_mem_sentBy hnew, (hcontinues fd _ hsend).round⟩
  · rw [hinFlight] at hmem
    rcases List.mem_append.mp hmem with hold | hnew
    · exact hleft other hold htype
    · obtain ⟨fd, hsend⟩ := mem_effects_of_mem_sentBy hnew
      by_cases hasks : envelope.proto.protocolType = .masterAskTracker
      · have hfirst := (hcontinues fd _ hsend).first (htype.trans hasks.symm)
        rw [hback envelope hdelivers.delivered hasks] at hfirst
        cases hfirst
      · have hlt : weight net.addresses envelope.proto - 1 < weight net.addresses other.proto :=
          weight_lt_of_asks hround hasks htype
        exact absurd ((weight_le_cost hsend).trans hcost) (Nat.not_le_of_lt hlt)

theorem Unasked.step (hs : Unasked net s) (h : step pb net clock s arrival = some s') :
    Unasked net s' := by
  refine unasked_of_step hs.rounds (fun envelope hmem => ?_) (fun envelope hget htype => ?_) h
  · exact hs.unasked envelope (List.mem_of_mem_eraseIdx hmem)
  · exact absurd htype (hs.unasked envelope (List.mem_of_getElem? hget))

end Unasked

section Tells

variable {pb : Protobuf} {clock : Str → Int} {masters : Str → Node} {passed : List Str}
variable {proto : TrackerProtocol}

/-- What a question says after the masters it has passed: the primary that some
of them know and none of them contradicts, and the time of that primary if it
is itself among them and takes itself for the primary. -/
structure Tells (pb : Protobuf) (clock : Str → Int) (masters : Str → Node) (passed : List Str)
    (proto : TrackerProtocol) : Prop where
  named : ∀ master ∈ passed, (masters master).primarySockaddr = [] ∨
    (masters master).primarySockaddr = proto.responseResult
  carries : ∀ master ∈ passed, (masters master).primarySockaddr = master →
    Carries pb (timeAt clock masters master 0) proto
  unstamped : (∀ master ∈ passed, (masters master).primarySockaddr ≠ master) →
    proto.keyValuesPairs = []

/-- A master that takes itself for the primary is the one that is named. -/
theorem Tells.eq_of_own (h : Tells pb clock masters passed proto) {master : Str}
    (hmaster : master ∈ passed) (hne : master ≠ [])
    (hown : (masters master).primarySockaddr = master) : proto.responseResult = master := by
  rcases h.named master hmaster with hnone | hnamed
  · exact absurd (hown.symm.trans hnone) hne
  · exact hnamed.symm.trans hown

theorem Tells.answered (h : Tells pb clock masters passed proto)
    (hpassed : ∀ master ∈ passed, master ≠ []) {own : Str} (hnew : own ∉ passed)
    (hne : own ≠ []) {sent : TrackerProtocol}
    (hanswered : Answered pb own (timeAt clock masters own 0) (masters own).primarySockaddr
      proto sent) : Tells pb clock masters (passed ++ [own]) sent where
  named master hmaster := by
    rw [hanswered.responseResult]
    rcases List.mem_append.mp hmaster with hold | hlast
    · rcases h.named master hold with hnone | hnamed
      · exact Or.inl hnone
      · split_ifs with hempty
        · exact Or.inl (hnamed.trans hempty)
        · exact Or.inr hnamed
    · obtain rfl := List.mem_singleton.mp hlast
      split_ifs with hempty
      · exact Or.inr rfl
      · exact hanswered.agrees.resolve_left hempty
  carries master hmaster hown := by
    rcases List.mem_append.mp hmaster with hold | hlast
    · -- the master has been named, so the next one does not take itself for the primary
      have hnamed := h.eq_of_own hold (hpassed master hold) hown
      refine (h.carries master hold hown).of_records_eq (hanswered.keyValuesPairs fun hself => ?_)
      rcases hanswered.agrees with hempty | hnone | hsame
      · exact hpassed master hold (hnamed.symm.trans hempty)
      · exact hne (hself.symm.trans hnone)
      · have heq : own = master := hself.symm.trans (hsame.trans hnamed)
        exact hnew (heq ▸ hold)
    · obtain rfl := List.mem_singleton.mp hlast
      refine hanswered.carries hown ?_
      have hnone : proto.keyValuesPairs = [] := by
        refine h.unstamped fun other hother hself => ?_
        have hnamed := h.eq_of_own hother (hpassed other hother) hself
        rcases hanswered.agrees with hempty | hunknown | hsame
        · exact hpassed other hother (hnamed.symm.trans hempty)
        · exact hne (hown.symm.trans hunknown)
        · have heq : master = other := hown.symm.trans (hsame.trans hnamed)
          exact hnew (heq ▸ hother)
      exact unstamped_of_records_nil hnone
  unstamped hothers := by
    have hlast := hothers own (List.mem_append_right _ (List.mem_singleton.mpr rfl))
    rw [hanswered.keyValuesPairs hlast]
    exact h.unstamped fun master hmaster => hothers master (List.mem_append_left _ hmaster)

end Tells

/-- A master that knows no primary asks for it, and the question comes back with
an answer. -/
structure Question (pb : Protobuf) where
  net : Network
  clock : Str → Int
  masters : Str → Node
  asker : Str
  uninitialised : Int
  first : State
  arrivals : List Arrival
  before : State
  reply : Arrival
  envelope : Envelope
  after : State
  placed : ∀ master ∈ net.liveMasters, Placed net master (masters master)
  int32 : ∀ master ∈ net.liveMasters, timeAt clock masters master 0 < 2 ^ 31
  asker_live : asker ∈ net.liveMasters
  unknown : (masters asker).primarySockaddr = []
  asks : Cluster.step pb net { masters := masters }
    (.askTracker asker (clock asker) uninitialised) = some first
  runs : run (step pb net clock) first arrivals = some before
  delivered : before.inFlight[reply.index]? = some envelope
  isQuestion : envelope.proto.protocolType = .masterAskTracker
  toAsker : envelope.receiver = asker
  primary_live : envelope.proto.responseResult ∈ net.liveMasters
  processed : step pb net clock before reply = some after

namespace Question

variable {pb : Protobuf}

/-- The primary the answer names. -/
def primary (q : Question pb) : Str := q.envelope.proto.responseResult

def Agrees (q : Question pb) : Prop := SameTime q.clock q.after.masters q.asker q.primary

/-- The question is on its way, and every master has the time and the belief it
had at first. -/
structure Asking (q : Question pb) (envelope : Envelope) (passed ahead : List Str) (s : State) :
    Prop where
  underway : Underway q.net s
  ruling : s.inFlight.filter decisive = [envelope]
  round : OnRing q.net envelope passed ahead
  started : passed.head? = some q.asker
  protocolType : envelope.proto.protocolType = .masterAskTracker
  fdcsEnv : ∀ master, (s.masters master).fdcsEnv = (q.masters master).fdcsEnv
  primary : ∀ master, (s.masters master).primarySockaddr = (q.masters master).primarySockaddr
  tells : Tells pb q.clock q.masters passed envelope.proto

/-- How far the question has come. -/
inductive Phase (q : Question pb) (s : State) : Prop where
  | asking (envelope : Envelope) (passed ahead : List Str)
      (asking : q.Asking envelope passed ahead s)
  | settled (unasked : Unasked q.net s)

variable {q : Question pb} {s s' : State} {arrival : Arrival}

theorem address_ne_nil_of_passed {net : Network} {passed ahead : List Str}
    (h : net.liveMasters ~r passed ++ ahead) : ∀ master ∈ passed, master ≠ [] := by
  intro master hmaster
  have hlive : master ∈ net.liveMasters :=
    h.mem_iff.mpr (List.mem_append_left _ hmaster)
  exact address_ne_nil (mem_addresses_of_live hlive)

/-- With an election the question is settled. -/
theorem phase_elects (hs : Underway q.net s) {master : Str} {left : List Envelope} {t : Handling}
    (h : Handles q.net master left t s s') (hleft : left ⊆ s.inFlight)
    (hnone : left.filter decisive = []) (hplaced : Placed q.net master t.node)
    (helects : Elects q.net master { node := s.masters master } t) : q.Phase s' := by
  rcases helects with hsends | ⟨envelope, hsends, htype⟩
  · obtain ⟨hunderway, hruling⟩ := hs.rules h hleft hnone hplaced hsends
    refine .settled (unasked_of_underway hunderway fun envelope hmem => ?_)
    rw [hruling] at hmem
    cases hmem
  · obtain ⟨hunderway, hruling⟩ := hs.rules h hleft hnone hplaced hsends
    refine .settled (unasked_of_underway hunderway fun other hmem => ?_)
    rw [hruling] at hmem
    obtain rfl := List.mem_singleton.mp hmem
    rw [htype]
    exact fun h => nomatch h

/-- The question has come back: the asker calls an election or is answered. -/
theorem Asking.closes {envelope : Envelope} {passed : List Str}
    (ha : q.Asking envelope passed [] s) (hpassed : envelope.receiver ∈ passed)
    (hlive : envelope.receiver ∈ q.net.liveMasters)
    (hnone : (s.inFlight.eraseIdx arrival.index).filter decisive = [])
    (hdelivered : s.inFlight[arrival.index]? = some envelope)
    (h : step pb q.net q.clock s arrival = some s') : q.Phase s' := by
  refine .settled (unasked_of_step (rounds_of_underway ha.underway) (fun other hmem hasks => ?_)
    (fun other hother _ => ?_) h)
  · have hdecisive := List.mem_filter.mpr ⟨hmem, decisive_of_asks hasks⟩
    rw [hnone] at hdecisive
    cases hdecisive
  · obtain rfl := Option.some.inj (hdelivered.symm.trans hother)
    rw [ha.round.response]
    exact (contains_intercalate (mem_addresses_of_live hlive)
      (ring_subset_addresses ha.round.ring)).mpr hpassed

/-- The next master answers the question and passes it on, or calls an
election. -/
theorem Asking.passes {envelope : Envelope} {passed ahead : List Str} {t : Handling}
    (ha : q.Asking envelope passed (envelope.receiver :: ahead) s)
    (hnew : envelope.receiver ∉ passed) (hlive : envelope.receiver ∈ q.net.liveMasters)
    (hnone : (s.inFlight.eraseIdx arrival.index).filter decisive = [])
    (h : Delivers pb q.net q.clock arrival envelope t s s') : q.Phase s' := by
  have hplaced := ha.underway.placed _ hlive
  have htime : (s.masters envelope.receiver).fdcsEnv.fdcsTime (q.clock envelope.receiver) =
      timeAt q.clock q.masters envelope.receiver 0 := by
    rw [ha.fdcsEnv, timeAt_zero]
  obtain ⟨hplaced', hresult⟩ := h.ensured
    ((ensures_protocolProcess_askTracker ha.protocolType
      (closedCircle_eq_false ha.round hplaced hnew)).mpr
        (ensures_processAskTracker_open hplaced hlive (inHand_of_onRing ha.round) ha.protocolType
          (htime ▸ q.int32 _ hlive)))
  rcases hresult with helects | ⟨sent, hsends, henv, hknown, hround, hanswered⟩
  · exact phase_elects ha.underway h.toHandles List.eraseIdx_subset hnone hplaced' helects
  · obtain ⟨hunderway, hruling⟩ :=
      ha.underway.rules h.toHandles List.eraseIdx_subset hnone hplaced' hsends
    dsimp only at hanswered
    rw [htime, ha.primary] at hanswered
    refine .asking sent (passed ++ [envelope.receiver]) ahead ⟨hunderway, hruling, hround,
      List.mem_head?_append_of_mem_head? ha.started, hanswered.protocolType, ?_, ?_, ?_⟩
    · intro master
      rw [h.masters, update_kept henv, ha.fdcsEnv]
    · intro master
      rw [h.masters, update_kept hknown, ha.primary]
    · exact ha.tells.answered (address_ne_nil_of_passed ha.round.ring) hnew
        (address_ne_nil (mem_addresses_of_live hlive)) hanswered

theorem Asking.step {envelope : Envelope} {passed ahead : List Str}
    (ha : q.Asking envelope passed ahead s)
    (h : step pb q.net q.clock s arrival = some s') : q.Phase s' := by
  rcases ha.underway.step_cases (some envelope) ha.ruling h with ⟨hunderway, hsteady⟩ |
    ⟨delivered, t, heq, hlive, hnone, hdelivers⟩
  · exact .asking envelope passed ahead
      { ha with
        underway := hunderway
        ruling := hsteady.ruling.trans ha.ruling
        fdcsEnv := fun master => (hsteady.fdcsEnv master).trans (ha.fdcsEnv master)
        primary := fun master => (hsteady.primary master).trans (ha.primary master) }
  · obtain rfl := Option.some.inj heq
    rcases onRing_cases ha.round with ⟨rfl, hpassed, _⟩ | ⟨rest, rfl, hnew⟩
    · exact ha.closes hpassed hlive hnone hdelivers.delivered h
    · exact ha.passes hnew hlive hnone hdelivers

end Question

section WorkerHandlers

variable {pb : Protobuf} {around : Surroundings}

end WorkerHandlers

/-- A worker asks a live master for the primary and takes in its answer. -/
structure WorkerQuestion (pb : Protobuf) where
  net : Network
  clock : Str → Int
  masters : Str → Node
  master : Str
  worker : Node
  asking : Surroundings
  asked : Bool × Handling
  requestFd : Int
  request : TrackerProtocol
  socketFd : Int
  uninitialised : Int
  answered : Bool × Handling
  replyFd : Int
  reply : TrackerProtocol
  waiting : Node
  around : Surroundings
  taken : Bool × Handling
  int32 : ∀ master ∈ net.liveMasters, timeAt clock masters master 0 < 2 ^ 31
  master_live : master ∈ net.liveMasters
  asks : (Worker.askTracker asking).run { node := worker } = .ok asked
  requested : .send requestFd request ∈ asked.2.effects
  answers : (protocolProcess pb (net.surroundings master (clock master) uninitialised) socketFd
    request).run { node := masters master } = .ok answered
  replied : .send replyFd reply ∈ answered.2.effects
  primary_live : reply.responseResult ∈ net.liveMasters
  takes : (Worker.processAskTracker pb around reply).run { node := waiting } = .ok taken

namespace WorkerQuestion

variable {pb : Protobuf}

/-- From now on the worker has the time of the primary the answer names. -/
def Agrees (q : WorkerQuestion pb) : Prop :=
  ∀ later, q.taken.2.node.fdcsEnv.fdcsTime (q.around.nowTime + later) =
    timeAt q.clock (Function.update q.masters q.master q.answered.2.node)
      q.reply.responseResult later

end WorkerQuestion

section BareReplies

variable {pb : Protobuf} {around : Surroundings}

/-- `ConnectMaster` finds the address in the group and has a socket to it, or
its next attempt succeeds. -/
def Reaches (around : Surroundings) (attempts : Nat) (node : Node) (address : Str) : Prop :=
  contains node.trackerGroup address = true ∧
    ((node.masterSockets.find? address).isSome ∨ (around.connect attempts address).isSome)

end BareReplies

/-- The answer to the question of a master names a primary and has no record of
the time. -/
structure BareReply (pb : Protobuf) where
  around : Surroundings
  socketFd : Int
  node : Node
  proto : TrackerProtocol
  processed : Bool × Handling
  isQuestion : proto.protocolType = .masterAskTracker
  closes : closedCircle node proto = true
  names : proto.responseResult ≠ []
  bare : Unstamped proto
  int32 : node.fdcsEnv.fdcsTime around.nowTime < 2 ^ 31
  processes : (protocolProcess pb around socketFd proto).run { node := node } = .ok processed

namespace BareReply

variable {pb : Protobuf}

def Keeps (r : BareReply pb) : Prop :=
  r.processed.2.node.fdcsEnv.fdcsTimeDiffer = r.node.fdcsEnv.fdcsTimeDiffer

end BareReply

/-- The answer to the question of a worker has no record of the time. -/
structure BareWorkerReply (pb : Protobuf) where
  around : Surroundings
  node : Node
  proto : TrackerProtocol
  processed : Bool × Handling
  bare : Unstamped proto
  processes : (Worker.processAskTracker pb around proto).run { node := node } = .ok processed

namespace BareWorkerReply

variable {pb : Protobuf}

def Keeps (r : BareWorkerReply pb) : Prop :=
  r.processed.2.node.fdcsEnv.fdcsTimeDiffer = r.node.fdcsEnv.fdcsTimeDiffer

end BareWorkerReply

section Clocks

end Clocks

end FastDCS.AskedTime
