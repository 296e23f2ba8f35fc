import FastDCS.Agreement

/-!
The time a message carries round the group: who stamps `FdcsTime` on it, who
takes it over from it, and what the handlers of the ring do to both.
-/

namespace FastDCS.TimeStamps

open FastDCS.Strings
open FastDCS.Messages
open FastDCS.DelimitedLists
open FastDCS.Handlers
open FastDCS.Tracker
open FastDCS.Master
open FastDCS.Connections
open FastDCS.Cluster
open FastDCS.Rings
open FastDCS.Election
open FastDCS.Agreement
open List (IsRotated)

section Records

variable {pb : Protobuf} {around : Surroundings} {E : Fault → Prop}

/-- The message has no record of a time. -/
def Unstamped (proto : TrackerProtocol) : Prop :=
  ∀ pairs ∈ proto.keyValuesPairs, pairs.key ≠ keyValuePairsFdcsTime

theorem unstamped_of_records_nil {proto : TrackerProtocol} (h : proto.keyValuesPairs = []) :
    Unstamped proto := by
  rw [Unstamped, h]
  exact fun _ hmem => absurd hmem List.not_mem_nil

/-- Every reader takes this time from the message. -/
def Carries (pb : Protobuf) (time : Int) (proto : TrackerProtocol) : Prop :=
  ∀ around, protoFdcsTime pb around proto = time

theorem Carries.of_records_eq {time : Int} {proto proto' : TrackerProtocol}
    (h : Carries pb time proto) (heq : proto'.keyValuesPairs = proto.keyValuesPairs) :
    Carries pb time proto' := by
  intro around
  rw [← h around, protoFdcsTime, protoFdcsTime, heq]

theorem carries_of_written {time : Int} {key : Str} (hkey : int32ToKey time = some key)
    (hint32 : time < 2 ^ 31) {proto : TrackerProtocol} (hproto : Unstamped proto) :
    Carries pb time { proto with
      keyValuesPairs := proto.keyValuesPairs ++
        [writePair pb { key := keyValuePairsFdcsTime }
          { key := keyValuePairsFdcsTime, value := key }] } := by
  intro around
  have hnone : (proto.keyValuesPairs.find? fun pairs =>
      decide (pairs.key = keyValuePairsFdcsTime)) = none := by
    refine List.find?_eq_none.mpr fun pairs hmem => ?_
    simpa using hproto pairs hmem
  have hread : (readPairs pb (writePair pb { key := keyValuePairsFdcsTime }
      { key := keyValuePairsFdcsTime, value := key }) .empty).find? keyValuePairsFdcsTime =
        some key := by
    rw [readPairs, writePair, List.nil_append, List.foldl_cons, List.foldl_nil,
      pb.parsePair_serializePair, OrderedMap.find?_insert, if_pos rfl]
    rfl
  have hfound : [writePair pb { key := keyValuePairsFdcsTime }
      { key := keyValuePairsFdcsTime, value := key }].find?
        (fun pairs => decide (pairs.key = keyValuePairsFdcsTime)) = some (writePair pb
          { key := keyValuePairsFdcsTime } { key := keyValuePairsFdcsTime, value := key }) := by
    simp [writePair]
  rw [protoFdcsTime, List.find?_append, hnone, Option.none_or, hfound]
  dsimp only
  rw [hread]
  exact keyToInt32_int32ToKey hkey hint32 around.uninitialised

/-- The time a master stamps on a message that has none. -/
theorem ensures_addProtoFdcsTime_carries {s : Handling} {proto : TrackerProtocol}
    (hint32 : s.node.fdcsEnv.fdcsTime around.nowTime < 2 ^ 31) (hcheck : E .checkFailed) :
    Ensures (addProtoFdcsTime pb around proto) s
      (fun stamped t => t = s ∧ ∃ pairs, stamped = { proto with keyValuesPairs := pairs } ∧
        (Unstamped proto → Carries pb (s.node.fdcsEnv.fdcsTime around.nowTime) stamped)) E := by
  simp only [addProtoFdcsTime, ensures_bind, ensures_get]
  cases hkey : int32ToKey (s.node.fdcsEnv.fdcsTime around.nowTime) with
  | none => exact hcheck
  | some key => exact ⟨rfl, _, rfl, carries_of_written hkey hint32⟩

end Records

section Handlers

variable {pb : Protobuf} {net : Network} {master : Str} {nowTime uninitialised : Int}

/-- The messages that settle who is primary. -/
def decisive (envelope : Envelope) : Bool :=
  match envelope.proto.protocolType with
  | .election | .coordinator | .masterAskTracker => true
  | _ => false

/-- The messages that go with a new connection. -/
def notice (envelope : Envelope) : Bool :=
  match envelope.proto.protocolType with
  | .masterJoinGroup | .masterGroupChanged => true
  | _ => false

theorem not_decisive_of_notice {envelope : Envelope} (h : notice envelope = true) :
    ¬decisive envelope = true := by
  unfold notice at h
  unfold decisive
  split at h
  · next htype => rw [htype]; exact Bool.false_ne_true
  · next htype => rw [htype]; exact Bool.false_ne_true
  · cases h

/-- From `s` to `t` the master has sent one decisive message or none, besides
notices. -/
structure Sends (net : Network) (master : Str) (ruling : Option Envelope) (s t : Handling) :
    Prop where
  sends : ∃ sent, t.effects = s.effects ++ sent ∧
    (sentBy net master sent).filter decisive = ruling.toList ∧
    ∀ envelope ∈ sentBy net master sent, decisive envelope = true ∨ notice envelope = true

theorem sentBy_append (effects more : List Effect) :
    sentBy net master (effects ++ more) =
      sentBy net master effects ++ sentBy net master more := by
  rw [sentBy, List.filterMap_append]
  rfl

theorem Sends.of_effects_eq {s t : Handling} (h : t.effects = s.effects) :
    Sends net master none s t :=
  ⟨[], by rw [h, List.append_nil], rfl, fun _ hmem => absurd hmem List.not_mem_nil⟩

theorem Sends.trans {ruling ruling' : Option Envelope} {s t u : Handling}
    (hst : Sends net master ruling s t) (htu : Sends net master ruling' t u)
    (hone : ruling = none ∨ ruling' = none) : Sends net master (ruling.or ruling') s u := by
  obtain ⟨sent, hsent, hruling, hknown⟩ := hst.sends
  obtain ⟨more, hmore, hruling', hknown'⟩ := htu.sends
  refine ⟨sent ++ more, by rw [hmore, hsent, List.append_assoc], ?_, fun envelope hmem => ?_⟩
  · rw [sentBy_append, List.filter_append, hruling, hruling']
    rcases hone with rfl | rfl
    · exact List.nil_append _
    · cases ruling <;> rfl
  · rw [sentBy_append] at hmem
    exact (List.mem_append.mp hmem).elim (hknown envelope) (hknown' envelope)

/-- The master has connected others and sent notices. -/
structure Idles (net : Network) (master : Str) (s t : Handling) : Prop where
  placed : Placed net master t.node
  fdcsEnv : t.node.fdcsEnv = s.node.fdcsEnv
  primary : t.node.primarySockaddr = s.node.primarySockaddr
  sends : Sends net master none s t

theorem Idles.trans {s t u : Handling} (hst : Idles net master s t) (htu : Idles net master t u) :
    Idles net master s u where
  placed := htu.placed
  fdcsEnv := htu.fdcsEnv.trans hst.fdcsEnv
  primary := htu.primary.trans hst.primary
  sends := hst.sends.trans htu.sends (Or.inl rfl)

theorem idles_of_connects {s t : Handling}
    (h : Connects (net.surroundings master nowTime uninitialised) s t)
    (hs : Placed net master s.node) : Idles net master s t where
  placed := placed_of_connects h hs
  fdcsEnv := h.fdcsEnv
  primary := h.primary
  sends := .of_effects_eq h.effects

def Idle (net : Network) (master : Str) {α : Type} (x : Handler α) : Prop :=
  ∀ s, Placed net master s.node → Ensures x s (fun _ t => Idles net master s t) fun _ => True

variable {α β : Type}

theorem Idle.bind {x : Handler α} {f : α → Handler β} (hx : Idle net master x)
    (hf : ∀ a, Idle net master (f a)) : Idle net master (x >>= f) := by
  intro s hs
  rw [ensures_bind]
  refine (hx s hs).imp fun a t ht => ?_
  exact (hf a t ht.placed).imp fun _ u hu => ht.trans hu

theorem idle_pure (a : α) : Idle net master (pure a) := fun _ hs =>
  ⟨hs, rfl, rfl, .of_effects_eq rfl⟩

theorem idle_get : Idle net master (get : Handler Handling) := fun _ hs =>
  ⟨hs, rfl, rfl, .of_effects_eq rfl⟩

theorem Idle.ite {c : Prop} [Decidable c] {x y : Handler α} (hx : Idle net master x)
    (hy : Idle net master y) : Idle net master (if c then x else y) := by
  split_ifs
  · exact hx
  · exact hy

theorem idle_connectMaster (address : Str) :
    Idle net master (connectMaster (net.surroundings master nowTime uninitialised) address) :=
  fun _ hs => (ensures_connectMaster (Or.inr trivial)).imp fun _ _ ht => idles_of_connects ht.1 hs

theorem idle_findNextMaster :
    Idle net master (findNextMaster (net.surroundings master nowTime uninitialised)) :=
  fun _ hs => (ensures_findNextMaster trivial trivial).imp fun _ _ ht => idles_of_connects ht hs

theorem idle_sendProtocol {proto : TrackerProtocol}
    (hproto : proto.protocolType = .masterJoinGroup ∨ proto.protocolType = .masterGroupChanged)
    (fd : Int) : Idle net master (sendProtocol proto fd) := by
  intro s hs
  simp only [sendProtocol, ensures_bind, ensures_get, ensures_ite, emit, ensures_modify,
    ensures_pure]
  refine ⟨fun _ => ⟨hs, rfl, rfl, [_], rfl, ?_⟩, fun _ => ⟨hs, rfl, rfl, .of_effects_eq rfl⟩⟩
  have hnotice : ∀ envelope ∈ sentBy net master [.send fd (stamped s.node proto)],
      notice envelope = true := by
    intro envelope hmem
    obtain ⟨effect, heffect, hsent⟩ := List.mem_filterMap.mp hmem
    cases List.mem_singleton.mp heffect
    obtain ⟨receiver, _, rfl⟩ := Option.map_eq_some_iff.mp hsent
    rcases hproto with htype | htype
    · simp [notice, stamped, htype]
    · simp [notice, stamped, htype]
  refine ⟨List.filter_eq_nil_iff.mpr fun envelope hmem => ?_, fun envelope hmem => ?_⟩
  · exact not_decisive_of_notice (hnotice envelope hmem)
  · exact Or.inr (hnotice envelope hmem)

theorem idle_continueTransferProto {proto : TrackerProtocol}
    (hproto : proto.protocolType = .masterJoinGroup ∨ proto.protocolType = .masterGroupChanged) :
    Idle net master
      (continueTransferProto (net.surroundings master nowTime uninitialised) proto) := by
  refine idle_findNextMaster.bind fun fd => ?_
  exact Idle.ite (idle_pure _) ((idle_sendProtocol hproto fd).bind fun _ => idle_pure _)

theorem idle_masterGroupChanged :
    Idle net master (masterGroupChanged (net.surroundings master nowTime uninitialised)) := by
  refine idle_get.bind fun h => Idle.ite (idle_pure _) (idle_findNextMaster.bind fun fd => ?_)
  refine Idle.ite (idle_pure _) (idle_get.bind fun h => ?_)
  exact idle_sendProtocol (Or.inr rfl) fd

theorem idle_connectOnlineMaster (allMaster : Str) :
    Idle net master
      (connectOnlineMaster (net.surroundings master nowTime uninitialised) allMaster) := by
  rw [connectOnlineMaster]
  induction splitStringUsing allMaster ';' with
  | nil => exact idle_pure _
  | cons address rest ih =>
      refine Idle.bind ?_ fun _ => ih
      exact (idle_connectMaster address).bind fun _ => idle_pure _

/-- A notice changes no time and no belief about the primary. -/
theorem idle_protocolProcess {envelope : Envelope} (h : notice envelope = true) (socketFd : Int) :
    Idle net master (protocolProcess pb (net.surroundings master nowTime uninitialised) socketFd
      envelope.proto) := by
  intro s hs
  rw [protocolProcess, ensures_bind, ensures_get]
  unfold notice at h
  cases htype : envelope.proto.protocolType with
  | masterJoinGroup =>
      have hjoin : Idle net master (do
          let _ ← connectMaster (net.surroundings master nowTime uninitialised)
            envelope.proto.requestSockAddr
          let _ ← masterGroupChanged (net.surroundings master nowTime uninitialised)
          return true) :=
        (idle_connectMaster _).bind fun _ => idle_masterGroupChanged.bind fun _ => idle_pure true
      exact hjoin s hs
  | masterGroupChanged =>
      have hpass : Idle net master (do
          if !closedCircle s.node envelope.proto then
            connectOnlineMaster (net.surroundings master nowTime uninitialised)
              envelope.proto.requestArgs
            continueTransferProto (net.surroundings master nowTime uninitialised) envelope.proto
          return true) := by
        refine Idle.ite ?_ (idle_pure true)
        refine (idle_connectOnlineMaster _).bind fun _ => ?_
        exact (idle_continueTransferProto (Or.inr htype)).bind fun _ => idle_pure true
      exact hpass s hs
  | _ =>
      rw [htype] at h
      cases h

/-- The same message, one master further. -/
structure Copies (proto sent : TrackerProtocol) : Prop where
  protocolType : sent.protocolType = proto.protocolType
  responseResult : sent.responseResult = proto.responseResult
  keyValuesPairs : sent.keyValuesPairs = proto.keyValuesPairs

/-- A decisive message is passed on along the ring, or is lost where the next
master's descriptor has no buffers. -/
structure Passes (net : Network) (master : Str) (proto : TrackerProtocol)
    (passed ahead : List Str) (s t : Handling) : Prop where
  placed : Placed net master t.node
  fdcsEnv : t.node.fdcsEnv = s.node.fdcsEnv
  primary : t.node.primarySockaddr = s.node.primarySockaddr
  sends : Sends net master none s t ∨ ∃ envelope, Sends net master (some envelope) s t ∧
    OnRing net envelope (passed ++ [master]) ahead ∧ Copies proto envelope.proto

theorem Idles.passes {proto : TrackerProtocol} {passed ahead : List Str} {s t u : Handling}
    (hst : Idles net master s t) (htu : Passes net master proto passed ahead t u) :
    Passes net master proto passed ahead s u where
  placed := htu.placed
  fdcsEnv := htu.fdcsEnv.trans hst.fdcsEnv
  primary := htu.primary.trans hst.primary
  sends := by
    rcases htu.sends with hlost | ⟨envelope, hsent, hround⟩
    · exact Or.inl (hst.sends.trans hlost (Or.inl rfl))
    · exact Or.inr ⟨envelope, hst.sends.trans hsent (Or.inl rfl), hround⟩

/-- The message as the master on its way round has it in hand. -/
structure InHand (net : Network) (master : Str) (proto : TrackerProtocol)
    (passed ahead : List Str) : Prop where
  ring : net.liveMasters ~r passed ++ master :: ahead
  request : (passed ++ [master]).head? = some proto.requestSockAddr
  response : proto.responseSockAddr = [';'].intercalate passed

theorem closedCircle_eq_false {envelope : Envelope} {passed ahead : List Str}
    (h : OnRing net envelope passed ahead) {node : Node}
    (hnode : Placed net envelope.receiver node) (hnew : envelope.receiver ∉ passed) :
    closedCircle node envelope.proto = false := by
  rw [Bool.eq_false_iff]
  exact fun hclosed => hnew ((closedCircle_iff h hnode).mp hclosed)

theorem inHand_of_onRing {envelope : Envelope} {passed ahead : List Str}
    (h : OnRing net envelope passed (envelope.receiver :: ahead)) :
    InHand net envelope.receiver envelope.proto passed ahead := by
  refine ⟨h.ring, ?_, h.response⟩
  rw [List.head?_append, h.request]
  rfl

theorem ensures_sendDecisive {s : Handling} (hs : Placed net master s.node)
    {proto : TrackerProtocol} {passed ahead : List Str}
    (hproto : InHand net master proto passed ahead)
    (hdecisive : ∀ receiver, decisive ⟨receiver, proto⟩ = true) {receiver : Str}
    (hlive : receiver ∈ net.liveMasters) (hreceiver : (ahead ++ passed).head? = some receiver) :
    Ensures (sendProtocol proto (net.descriptor master receiver)) s
      (fun _ t => Passes net master proto passed ahead s t) fun _ => True := by
  simp only [sendProtocol, ensures_bind, ensures_get, ensures_ite, emit, ensures_modify,
    ensures_pure]
  refine ⟨fun _ => ⟨hs, rfl, rfl, Or.inr ⟨⟨receiver, stamped s.node proto⟩, ?_, ?_, ?_⟩⟩,
    fun _ => ⟨hs, rfl, rfl, Or.inl (.of_effects_eq rfl)⟩⟩
  · have hsent : sentBy net master
        [.send (net.descriptor master receiver) (stamped s.node proto)] =
          [⟨receiver, stamped s.node proto⟩] := by
      simp [sentBy, find?_descriptor master hlive]
    have hruling : decisive ⟨receiver, stamped s.node proto⟩ = true := hdecisive receiver
    refine ⟨[_], rfl, ?_, ?_⟩
    · rw [hsent, List.filter_cons_of_pos hruling]
      rfl
    · rw [hsent]
      exact fun envelope hmem => Or.inl (List.mem_singleton.mp hmem ▸ hruling)
  · exact onRing_stamped hs hproto.ring hproto.request hproto.response hreceiver
  · exact ⟨rfl, rfl, rfl⟩

theorem ensures_continueTransferProto {s : Handling} (hs : Placed net master s.node)
    {proto : TrackerProtocol} {passed ahead : List Str}
    (hproto : InHand net master proto passed ahead)
    (hdecisive : ∀ receiver, decisive ⟨receiver, proto⟩ = true) :
    Ensures (continueTransferProto (net.surroundings master nowTime uninitialised) proto) s
      (fun _ t => Passes net master proto passed ahead s t) fun _ => True := by
  rw [continueTransferProto, ensures_bind]
  refine (ensures_next hs hproto.ring).imp fun fd t h => ?_
  obtain ⟨hst, hfd⟩ := h
  have ht := idles_of_connects hst hs
  rcases hfd with ⟨rfl, _⟩ | ⟨hne, receiver, hlive, hreceiver, rfl⟩
  · exact ⟨ht.placed, ht.fdcsEnv, ht.primary, Or.inl ht.sends⟩
  · rw [if_neg hne, ensures_bind]
    exact (ensures_sendDecisive ht.placed hproto hdecisive hlive hreceiver).imp fun _ u hu =>
      ht.passes hu

/-- A master that joins takes the time from the message, unless it is the
primary itself. -/
theorem ensures_joinMasterGroup_time {s : Handling} (hs : Placed net master s.node)
    (hprimary : s.node.primarySockaddr ∈ net.liveMasters) (proto : TrackerProtocol) :
    Ensures (joinMasterGroup pb (net.surroundings master nowTime uninitialised) proto) s
      (fun _ t => Placed net master t.node ∧
        t.node.primarySockaddr = s.node.primarySockaddr ∧
        Sends net master none s t ∧
        t.node.fdcsEnv =
          if s.node.primarySockaddr = master then s.node.fdcsEnv
          else s.node.fdcsEnv.calcFdcsTimeDiffer nowTime
            (protoFdcsTime pb (net.surroundings master nowTime uninitialised) proto))
      fun _ => True := by
  have hmem := mem_addresses_of_live hprimary
  have hknows : s.node.iKnowPrimaryMaster = true := by
    simpa [Node.iKnowPrimaryMaster] using address_ne_nil hmem
  rw [joinMasterGroup, ensures_bind, ensures_get]
  dsimp only
  rw [hknows, hs.server]
  refine ensures_ite.mpr ⟨fun hown => ?_, fun hother => ?_⟩
  · have hself : s.node.primarySockaddr = master := by simpa using hown
    exact ⟨hs, rfl, .of_effects_eq rfl, (if_pos hself).symm⟩
  · have hne : s.node.primarySockaddr ≠ master := by simpa using hother
    rw [ensures_bind]
    refine (ensures_connectMaster_live hs hmem).imp fun ok t h => ?_
    obtain ⟨hst, hok, hsocket⟩ := h
    have ht := idles_of_connects hst hs
    obtain rfl : ok = true := hok.mpr hprimary
    rw [if_pos rfl, ensures_bind, modifyEnv, modifyNode, ensures_modify, ensures_bind]
    refine ensures_masterSocketFd (hsocket rfl) ?_
    rw [ensures_bind, ensures_get]
    have hset : Placed net master { t.node with
        fdcsEnv := t.node.fdcsEnv.calcFdcsTimeDiffer nowTime
          (protoFdcsTime pb (net.surroundings master nowTime uninitialised) proto) } :=
      ⟨ht.placed.isMaster, ht.placed.group, ht.placed.server, ht.placed.sockets⟩
    refine (idle_sendProtocol (Or.inl rfl) _ { t with node := _ } hset).imp fun _ u hu => ?_
    have hsends : Sends net master none s u := by
      have hnext : Sends net master none t u := ⟨hu.sends.sends⟩
      exact ht.sends.trans hnext (Or.inl rfl)
    refine ⟨hu.placed, hu.primary.trans ht.primary, hsends, ?_⟩
    rw [hu.fdcsEnv, if_neg hne, ← ht.fdcsEnv]

theorem sends_masterSignal (s : Handling) (node : Node) :
    Sends net master none s { s with node := node, effects := s.effects ++ [.masterSignal] } :=
  ⟨[.masterSignal], rfl, rfl, fun _ hmem => absurd hmem List.not_mem_nil⟩

/-- What becomes of a message that names the winner: it is lost or goes on with
the time it carries. -/
def Announces (pb : Protobuf) (net : Network) (master winner : Str) (time : Int)
    (passed ahead : List Str) (s t : Handling) : Prop :=
  Sends net master none s t ∨ ∃ envelope, Sends net master (some envelope) s t ∧
    OnRing net envelope (passed ++ [master]) ahead ∧
    envelope.proto.protocolType = .coordinator ∧ envelope.proto.responseResult = winner ∧
    Carries pb time envelope.proto

theorem Passes.announces {proto : TrackerProtocol} {passed ahead : List Str} {s t u : Handling}
    (htu : Passes net master proto passed ahead t u) (hst : Sends net master none s t)
    {winner : Str} {time : Int} (htype : proto.protocolType = .coordinator)
    (hresult : proto.responseResult = winner) (htime : Carries pb time proto) :
    Announces pb net master winner time passed ahead s u := by
  rcases htu.sends with hlost | ⟨envelope, hsent, hround, hcopies⟩
  · exact Or.inl (hst.trans hlost (Or.inl rfl))
  · refine Or.inr ⟨envelope, hst.trans hsent (Or.inl rfl), hround, ?_, ?_, ?_⟩
    · exact hcopies.protocolType.trans htype
    · exact hcopies.responseResult.trans hresult
    · exact htime.of_records_eq hcopies.keyValuesPairs

theorem placed_becomesPrimary {node : Node} (h : Placed net master node) :
    Placed net master { node with
      primarySockaddr := node.trackerServer, fdcsEnv := node.fdcsEnv.initFdcsTimeDiffer } :=
  ⟨h.isMaster, h.group, h.server, h.sockets⟩

theorem ensures_protocolProcess_coordinator {around : Surroundings} {socketFd : Int}
    {proto : TrackerProtocol} {closed : Bool} {s : Handling} {Q : Bool → Handling → Prop}
    {E : Fault → Prop} (htype : proto.protocolType = .coordinator)
    (hclosed : closedCircle s.node proto = closed) :
    Ensures (protocolProcess pb around socketFd proto) s Q E ↔
      Ensures (processCoordinator pb around closed proto) s Q E := by
  rw [protocolProcess, ensures_bind, ensures_get, htype, ← hclosed]

theorem ensures_processCoordinator_open {s : Handling} (hs : Placed net master s.node)
    {proto : TrackerProtocol} {passed ahead : List Str}
    (hproto : InHand net master proto passed ahead) (htype : proto.protocolType = .coordinator)
    (hwinner : proto.responseResult ∈ net.liveMasters) {time : Int}
    (htime : Carries pb time proto) :
    Ensures (processCoordinator pb (net.surroundings master nowTime uninitialised) false proto) s
      (fun _ t => Placed net master t.node ∧
        t.node.fdcsEnv = (if proto.responseResult = master then s.node.fdcsEnv
          else s.node.fdcsEnv.calcFdcsTimeDiffer nowTime time) ∧
        Announces pb net master proto.responseResult time passed ahead s t)
      fun _ => True := by
  rw [processCoordinator, ensures_bind]
  refine ensures_check (Or.inr trivial) fun _ => ?_
  rw [ensures_bind, modifyNode, ensures_modify, if_neg Bool.false_ne_true, ensures_bind]
  have hset : Placed net master { s.node with primarySockaddr := proto.responseResult } :=
    ⟨hs.isMaster, hs.group, hs.server, hs.sockets⟩
  refine (ensures_joinMasterGroup_time (s := { s with node := _ }) hset hwinner proto).imp
    fun _ t ht => ?_
  obtain ⟨hplaced, _, hsends, henv⟩ := ht
  rw [htime] at henv
  rw [ensures_bind]
  have hdecisive : ∀ receiver, decisive ⟨receiver, proto⟩ = true := by
    intro receiver
    rw [decisive, htype]
  refine (ensures_continueTransferProto hplaced hproto hdecisive).imp fun _ u hu => ?_
  refine ⟨hu.placed, hu.fdcsEnv.trans henv, ?_⟩
  have hst : Sends net master none s t := ⟨hsends.sends⟩
  exact hu.announces hst htype rfl htime

/-- The announcement is back where it started: the winner resets its time. -/
theorem ensures_processCoordinator_closed {s : Handling} (hs : Placed net master s.node)
    (proto : TrackerProtocol) :
    Ensures (processCoordinator pb (net.surroundings master nowTime uninitialised) true proto) s
      (fun _ t => Placed net master t.node ∧
        t.node.fdcsEnv = (if proto.responseResult = master then s.node.fdcsEnv.initFdcsTimeDiffer
          else s.node.fdcsEnv) ∧ Sends net master none s t)
      fun _ => True := by
  rw [processCoordinator, ensures_bind]
  refine ensures_check (Or.inr trivial) fun _ => ?_
  rw [ensures_bind, modifyNode, ensures_modify, if_pos rfl, ensures_bind, ensures_get]
  have hserver : s.node.trackerServer = master := hs.server
  refine ensures_ite.mpr ⟨fun hown => ?_, fun hother => ?_⟩
  · rw [if_pos (hown.trans hserver)]
    exact ⟨⟨hs.isMaster, hs.group, hs.server, hs.sockets⟩, rfl, sends_masterSignal s _⟩
  · rw [if_neg fun hwinner => hother (hwinner.trans hserver.symm)]
    exact ⟨⟨hs.isMaster, hs.group, hs.server, hs.sockets⟩, rfl, .of_effects_eq rfl⟩

theorem iAmPrimaryMaster_iff_of_placed {node : Node} (h : Placed net master node)
    (hlive : master ∈ net.liveMasters) :
    node.iAmPrimaryMaster = true ↔ node.primarySockaddr = master := by
  simp only [Node.iAmPrimaryMaster, h.isMaster, h.server, Bool.true_and, Bool.and_eq_true,
    Bool.not_eq_true', decide_eq_true_eq]
  refine ⟨And.right, fun hown => ⟨?_, hown⟩⟩
  rw [hown]
  simpa using address_ne_nil (mem_addresses_of_live hlive)

theorem ensures_protocolProcess_askTracker {around : Surroundings} {socketFd : Int}
    {proto : TrackerProtocol} {closed : Bool} {s : Handling} {Q : Bool → Handling → Prop}
    {E : Fault → Prop} (htype : proto.protocolType = .masterAskTracker)
    (hclosed : closedCircle s.node proto = closed) :
    Ensures (protocolProcess pb around socketFd proto) s Q E ↔
      Ensures (processAskTracker pb around closed proto) s Q E := by
  rw [protocolProcess, ensures_bind, ensures_get, htype, ← hclosed]

/-- What a master does to a question for the primary that it passes on. -/
structure Answered (pb : Protobuf) (master : Str) (time : Int) (primary : Str)
    (proto answered : TrackerProtocol) : Prop where
  protocolType : answered.protocolType = .masterAskTracker
  agrees : proto.responseResult = [] ∨ primary = [] ∨ primary = proto.responseResult
  responseResult : answered.responseResult =
    if proto.responseResult = [] then primary else proto.responseResult
  carries : primary = master → Unstamped proto → Carries pb time answered
  keyValuesPairs : primary ≠ master → answered.keyValuesPairs = proto.keyValuesPairs

/-- The master calls an election, or cannot. -/
def Elects (net : Network) (master : Str) (s t : Handling) : Prop :=
  Sends net master none s t ∨ ∃ envelope, Sends net master (some envelope) s t ∧
    envelope.proto.protocolType = .election

theorem Idles.elects {s t u : Handling} (hst : Idles net master s t)
    (htu : Elects net master t u) : Elects net master s u := by
  rcases htu with hsent | ⟨envelope, hsent, htype⟩
  · exact Or.inl (hst.sends.trans hsent (Or.inl rfl))
  · exact Or.inr ⟨envelope, hst.sends.trans hsent (Or.inl rfl), htype⟩

/-- A question goes along the ring, or is lost or gives way to an election. -/
def Asks (net : Network) (master : Str) (passed ahead : List Str)
    (answered : TrackerProtocol → Prop) (s t : Handling) : Prop :=
  Elects net master s t ∨ ∃ envelope, Sends net master (some envelope) s t ∧
    t.node.fdcsEnv = s.node.fdcsEnv ∧ t.node.primarySockaddr = s.node.primarySockaddr ∧
      OnRing net envelope (passed ++ [master]) ahead ∧ answered envelope.proto

theorem Passes.asks {proto : TrackerProtocol} {passed ahead : List Str} {s t : Handling}
    (h : Passes net master proto passed ahead s t) {answered : TrackerProtocol → Prop}
    (hanswered : ∀ sent, Copies proto sent → answered sent) :
    Asks net master passed ahead answered s t := by
  rcases h.sends with hlost | ⟨envelope, hsent, hround, hcopies⟩
  · exact Or.inl (Or.inl hlost)
  · exact Or.inr ⟨envelope, hsent, h.fdcsEnv, h.primary, hround, hanswered _ hcopies⟩

theorem ensures_election_elects {s : Handling} (hs : Placed net master s.node)
    (hlive : master ∈ net.liveMasters) :
    Ensures (election (net.surroundings master nowTime uninitialised)) s
      (fun _ t => Placed net master t.node ∧ Elects net master s t) fun _ => True := by
  obtain ⟨rest, hring⟩ := exists_isRotated_cons hlive
  have hnext : net.liveMasters ~r [] ++ master :: rest := hring
  rw [election, ensures_bind]
  refine (ensures_next hs hnext).imp fun fd t h => ?_
  obtain ⟨hst, hfd⟩ := h
  have ht := idles_of_connects hst hs
  rcases hfd with ⟨rfl, _⟩ | ⟨hne, receiver, hreceiver, hhead, rfl⟩
  · rw [if_pos rfl]
    have hset := placed_becomesPrimary ht.placed
    exact ⟨hset, ht.elects (Or.inl (sends_masterSignal t _))⟩
  · rw [if_neg hne, ensures_bind, ensures_get]
    have hhand : InHand net master (newTrackerProtocol t.node .election) [] rest := by
      refine ⟨hring, ?_, rfl⟩
      simp [newTrackerProtocol, ht.placed.isMaster, ht.placed.server]
    refine (ensures_sendDecisive ht.placed hhand (fun _ => rfl) hreceiver hhead).imp
      fun _ u hu => ⟨hu.placed, ht.elects ?_⟩
    rcases hu.sends with hlost | ⟨envelope, hsent, _, hcopies⟩
    · exact Or.inl hlost
    · exact Or.inr ⟨envelope, hsent, hcopies.protocolType⟩

/-- A master stamps its time on a passing question only if it takes itself for
the primary. -/
theorem ensures_addPrimaryTime_stamps {s : Handling} (hs : Placed net master s.node)
    (hlive : master ∈ net.liveMasters) (hint32 : s.node.fdcsEnv.fdcsTime nowTime < 2 ^ 31)
    (proto : TrackerProtocol) :
    Ensures (addPrimaryTime pb (net.surroundings master nowTime uninitialised) proto) s
      (fun stamped t => t = s ∧ ∃ pairs, stamped = { proto with keyValuesPairs := pairs } ∧
        (s.node.primarySockaddr = master → Unstamped proto →
          Carries pb (s.node.fdcsEnv.fdcsTime nowTime) stamped) ∧
        (s.node.primarySockaddr ≠ master → pairs = proto.keyValuesPairs))
      fun _ => True := by
  have hiff := iAmPrimaryMaster_iff_of_placed hs hlive
  rw [addPrimaryTime, ensures_bind, ensures_get]
  refine ensures_ite.mpr ⟨fun hprimary => ?_, fun hother => ?_⟩
  · have hown := hiff.mp hprimary
    refine (ensures_addProtoFdcsTime_carries hint32 trivial).imp fun stamped t ht => ?_
    obtain ⟨rfl, pairs, rfl, hcarries⟩ := ht
    exact ⟨rfl, pairs, rfl, fun _ => hcarries, fun hne => absurd hown hne⟩
  · refine ⟨rfl, proto.keyValuesPairs, rfl, fun hown => absurd (hiff.mpr hown) hother, ?_⟩
    exact fun _ => rfl

theorem ensures_continueTransferProto_asks {s : Handling} (hs : Placed net master s.node)
    {proto answered : TrackerProtocol} {passed ahead : List Str}
    (hproto : InHand net master answered passed ahead)
    (hanswered : Answered pb master (s.node.fdcsEnv.fdcsTime nowTime) s.node.primarySockaddr
      proto answered) :
    Ensures (do
        continueTransferProto (net.surroundings master nowTime uninitialised) answered
        return true) s
      (fun _ t => Placed net master t.node ∧ Asks net master passed ahead
        (Answered pb master (s.node.fdcsEnv.fdcsTime nowTime) s.node.primarySockaddr proto) s t)
      fun _ => True := by
  have hdecisive : ∀ receiver, decisive ⟨receiver, answered⟩ = true := by
    intro receiver
    rw [decisive, hanswered.protocolType]
  rw [ensures_bind]
  refine (ensures_continueTransferProto hs hproto hdecisive).imp fun _ t ht => ?_
  refine ⟨ht.placed, ht.asks fun sent hcopies => ?_⟩
  exact
    { protocolType := hcopies.protocolType.trans hanswered.protocolType
      agrees := hanswered.agrees
      responseResult := hcopies.responseResult.trans hanswered.responseResult
      carries := fun hown hnone =>
        (hanswered.carries hown hnone).of_records_eq hcopies.keyValuesPairs
      keyValuesPairs := fun hne => hcopies.keyValuesPairs.trans (hanswered.keyValuesPairs hne) }

/-- A master passes the question on with the primary it knows, if no other has
been named. -/
theorem ensures_processAskTracker_open {s : Handling} (hs : Placed net master s.node)
    (hlive : master ∈ net.liveMasters) {proto : TrackerProtocol} {passed ahead : List Str}
    (hproto : InHand net master proto passed ahead)
    (htype : proto.protocolType = .masterAskTracker)
    (hint32 : s.node.fdcsEnv.fdcsTime nowTime < 2 ^ 31) :
    Ensures (processAskTracker pb (net.surroundings master nowTime uninitialised) false proto) s
      (fun _ t => Placed net master t.node ∧ Asks net master passed ahead
        (Answered pb master (s.node.fdcsEnv.fdcsTime nowTime) s.node.primarySockaddr proto) s t)
      fun _ => True := by
  rw [processAskTracker, ensures_bind, ensures_get, ensures_bind]
  refine (ensures_addPrimaryTime_stamps hs hlive hint32 proto).imp fun stamped t ht => ?_
  obtain ⟨rfl, pairs, rfl, hcarries, hkept⟩ := ht
  have hpass : ∀ result, (proto.responseResult = [] ∨ t.node.primarySockaddr = [] ∨
        t.node.primarySockaddr = proto.responseResult) →
      result = (if proto.responseResult = [] then t.node.primarySockaddr
        else proto.responseResult) →
      Ensures (do
          continueTransferProto (net.surroundings master nowTime uninitialised)
            { proto with keyValuesPairs := pairs, responseResult := result }
          return true) t
        (fun _ u => Placed net master u.node ∧ Asks net master passed ahead
          (Answered pb master (t.node.fdcsEnv.fdcsTime nowTime) t.node.primarySockaddr proto) t u)
        fun _ => True := by
    intro result hagrees hresult
    have hhand : InHand net master
        { proto with keyValuesPairs := pairs, responseResult := result } passed ahead :=
      ⟨hproto.ring, hproto.request, hproto.response⟩
    refine ensures_continueTransferProto_asks hs hhand ⟨htype, hagrees, hresult, ?_, hkept⟩
    exact fun hown hnone => (hcarries hown hnone).of_records_eq rfl
  rw [if_neg Bool.false_ne_true]
  refine ensures_ite.mpr ⟨fun hempty => ?_, fun hnamed => ensures_ite.mpr ⟨fun _ => ?_, ?_⟩⟩
  · have hnone : proto.responseResult = [] := List.isEmpty_iff.mp hempty
    dsimp only
    split_ifs with hunknown
    · exact hpass _ (Or.inl hnone) (by rw [if_pos hnone, hnone, List.isEmpty_iff.mp hunknown])
    · exact hpass _ (Or.inl hnone) (by rw [if_pos hnone])
  · exact (ensures_election_elects hs hlive).imp fun _ u hu => ⟨hu.1, Or.inl hu.2⟩
  · intro hsame
    have hne : proto.responseResult ≠ [] := fun hnone => hnamed (List.isEmpty_iff.mpr hnone)
    refine hpass _ (Or.inr ?_) (by rw [if_neg hne])
    by_cases hunknown : t.node.primarySockaddr = []
    · exact Or.inl hunknown
    · refine Or.inr (by_contra fun hconflict => hsame ⟨hconflict, ?_⟩)
      simpa using hunknown

end Handlers

end FastDCS.TimeStamps
