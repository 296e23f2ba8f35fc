import Mathlib.Logic.Function.Basic
import FastDCS.Forwarding
import FastDCS.Runs

/-!
The way a `WORKER_REQUEST_TASK` takes back to the worker, when masters with any
beliefs about the primary forward it to one another.
-/

namespace FastDCS.ReturnRoute

open FastDCS.Strings
open FastDCS.Messages
open FastDCS.MasterTasks
open FastDCS.Handlers
open FastDCS.Tracker
open FastDCS.Master
open FastDCS.Connections
open FastDCS.Forwarding
open FastDCS.Runs

/-- A descriptor of a process. -/
structure End where
  process : Str
  socketFd : Int
deriving DecidableEq

/-- A master that has forwarded a message, the descriptor on which it had
received it and the connection that descriptor belonged to. -/
structure Hop where
  master : Str
  socketFd : Int
  connection : Nat
deriving DecidableEq

/-- A message on a connection, with the masters that forwarded it, the last one
first. -/
structure Packet where
  destination : End
  connection : Nat
  proto : TrackerProtocol
  route : List Hop := []

/-- The hop of the master where the message arrives, if it has forwarded the
message before. -/
def Packet.ownHop (packet : Packet) : Option Hop :=
  packet.route.find? fun hop => decide (hop.master = packet.destination.process)

/-- What a master did with a message that it had forwarded before: the
descriptors on which it sent the answer, and whether the connection of the
request was open then. -/
structure Answer where
  hop : Hop
  stillOpen : Bool
  sentOn : List Int
deriving DecidableEq

structure State where
  masters : Str → Option Node := fun _ => none
  connection : End → Option Nat := fun _ => none
  peer : End → End := id
  connections : Nat := 0
  inFlight : List Packet := []
  answers : List Answer := []

/-- `change` stands for all that other messages and threads do to a master; its
address and the descriptors it has buffers for stay. -/
inductive Action where
  | openConnection (e e' : End)
  | closeSocket (e : End)
  | restart (own : Str) (node : Option Node)
  | change (own : Str) (node : Node)
  | request (e : End) (proto : TrackerProtocol)
  | deliver (index : Nat) (around : Surroundings)

/-- The branch of `WORKER_REQUEST_TASK` that forwards. -/
def forwards (node : Node) (proto : TrackerProtocol) : Bool :=
  !node.iAmPrimaryMaster && !contains proto.responseSockAddr node.trackerServer

def sends (effects : List Effect) : List (Int × TrackerProtocol) :=
  effects.filterMap fun
    | .send receiverFd proto => some (receiverFd, proto)
    | _ => none

namespace State

/-- A descriptor comes to belong to a connection or to none. -/
def setEnd (s : State) (e : End) (connection : Option Nat) (buffers : List Int → List Int) :
    State :=
  { s with
    connection := Function.update s.connection e connection
    masters := Function.update s.masters e.process ((s.masters e.process).map fun node =>
      { node with sendBuffers := buffers node.sendBuffers }) }

def attach (s : State) (e e' : End) : State :=
  { s.setEnd e (some s.connections) fun buffers => e.socketFd :: buffers with
    peer := Function.update s.peer e e' }

def detach (s : State) (e : End) : State :=
  s.setEnd e none fun buffers => buffers.filter (· ≠ e.socketFd)

/-- The process at the address ends and another one, if any, takes its place. -/
def restart (s : State) (own : Str) (node : Option Node) : State :=
  { s with
    masters := Function.update s.masters own node
    connection := fun e => if e.process = own then none else s.connection e }

def arriving (s : State) (index : Nat) : Option Packet :=
  s.inFlight[index]?.filter fun packet =>
    decide (s.connection packet.destination = some packet.connection)

/-- What the master sends leaves by the connections its descriptors belong to. -/
def packets (s : State) (own : Str) (route : List Hop) (effects : List Effect) : List Packet :=
  (sends effects).filterMap fun (receiverFd, proto) =>
    (s.connection ⟨own, receiverFd⟩).map fun connection =>
      { destination := s.peer ⟨own, receiverFd⟩
        connection := connection
        proto := proto
        route := route }

def stillOpen (s : State) (hop : Hop) : Bool :=
  decide (s.connection ⟨hop.master, hop.socketFd⟩ = some hop.connection)

def receive (pb : Protobuf) (around : Surroundings) (s : State) (packet : Packet) : State :=
  let own := packet.destination.process
  match s.masters own with
  | none => s
  | some node =>
      match (protocolProcess pb around packet.destination.socketFd packet.proto).run
          { node := node } with
      | .error _ => s.restart own none
      | .ok (_, h) =>
          let route :=
            if forwards node packet.proto then
              { master := own
                socketFd := packet.destination.socketFd
                connection := packet.connection } :: packet.route
            else packet.route
          { s with
            masters := Function.update s.masters own (some h.node)
            inFlight := s.inFlight ++ s.packets own route h.effects
            answers := s.answers ++ packet.ownHop.toList.map fun hop =>
              { hop := hop
                stillOpen := s.stillOpen hop
                sentOn := (sends h.effects).map Prod.fst } }

end State

def step (pb : Protobuf) (s : State) : Action → Option State
  | .openConnection e e' =>
      if e ≠ e' ∧ s.connection e = none ∧ s.connection e' = none then
        some { (s.attach e e').attach e' e with connections := s.connections + 1 }
      else none
  | .closeSocket e => some (s.detach e)
  | .restart own node =>
      if node.all fun node => node.isMaster && decide (node.trackerServer = own) &&
          node.sendBuffers.isEmpty then
        some (s.restart own node)
      else none
  | .change own node =>
      if node.isMaster && decide (node.trackerServer = own) &&
          decide ((s.masters own).map Node.sendBuffers = some node.sendBuffers) then
        some { s with masters := Function.update s.masters own (some node) }
      else none
  | .request e proto =>
      if (s.masters e.process).isNone && decide (proto.protocolType = .workerRequestTask) then
        (s.connection e).map fun connection =>
          { s with
            inFlight := s.inFlight ++
              [{ destination := s.peer e, connection := connection, proto := proto }] }
      else none
  | .deliver index around =>
      if index < s.inFlight.length then
        let left := { s with inFlight := s.inFlight.eraseIdx index }
        match s.arriving index with
        | none => some left
        | some packet => some (left.receive pb around packet)
      else none

/-- The answer went out on the descriptor of the request, while that belongs to
the connection of the request, and on no other. -/
def Answer.OnRoute (answer : Answer) : Prop :=
  answer.sentOn = if answer.stillOpen then [answer.hop.socketFd] else []

instance (answer : Answer) : Decidable answer.OnRoute :=
  inferInstanceAs (Decidable (_ = _))

def AnsweredWhereAsked (s : State) : Prop := ∀ answer ∈ s.answers, answer.OnRoute

/-- The message at the index, when it arrives at a master that has forwarded it. -/
def State.returned (s : State) (index : Nat) : Option (Packet × Node × Hop) :=
  (s.arriving index).bind fun packet =>
    (s.masters packet.destination.process).bind fun node =>
      packet.ownHop.map fun hop => (packet, node, hop)

/-- A primary answers where the message has come from, a secondary on the number
that the last master to forward the message has written. -/
def answerFd (packet : Packet) (node : Node) : Int :=
  if node.iAmPrimaryMaster then packet.destination.socketFd
  else
    match packet.route with
    | [] => packet.proto.forwardingSockFd
    | last :: _ => last.socketFd

/-- The connection of the request is open and the answer goes to its descriptor,
or it is closed and no other has the descriptor of the answer. -/
def Returns (s : State) (packet : Packet) (node : Node) (hop : Hop) : Prop :=
  if s.stillOpen hop then answerFd packet node = hop.socketFd
  else s.connection ⟨hop.master, answerFd packet node⟩ = none

instance (s : State) (packet : Packet) (node : Node) (hop : Hop) :
    Decidable (Returns s packet node hop) :=
  inferInstanceAs (Decidable (if s.stillOpen hop = true then answerFd packet node = hop.socketFd
    else s.connection ⟨hop.master, answerFd packet node⟩ = none))

def ReturnsOnRoute (s : State) : Action → Prop
  | .deliver index _ =>
      ∀ returned ∈ s.returned index, Returns s returned.1 returned.2.1 returned.2.2
  | _ => True

instance (s : State) : ∀ a, Decidable (ReturnsOnRoute s a)
  | .deliver _ _ => inferInstanceAs (Decidable (∀ returned ∈ _, _))
  | .openConnection _ _ | .closeSocket _ | .restart _ _ | .change _ _ | .request _ _ =>
      isTrue trivial

section Handling

variable {pb : Protobuf} {around : Surroundings} {E : Fault → Prop}

theorem sends_append (effects more : List Effect) :
    sends (effects ++ more) = sends effects ++ sends more :=
  List.filterMap_append

/-- The master has worked on its tasks and nothing else. -/
structure Settled (node node' : Node) : Prop where
  isMaster : node'.isMaster = node.isMaster
  trackerServer : node'.trackerServer = node.trackerServer
  sendBuffers : node'.sendBuffers = node.sendBuffers

theorem Settled.trans {node node' node'' : Node} (h : Settled node node')
    (h' : Settled node' node'') : Settled node node'' where
  isMaster := h'.isMaster.trans h.isMaster
  trackerServer := h'.trackerServer.trans h.trackerServer
  sendBuffers := h'.sendBuffers.trans h.sendBuffers

theorem Settled.stamped {node node' : Node} (h : Settled node node') (proto : TrackerProtocol) :
    stamped node' proto = stamped node proto := by
  simp only [Tracker.stamped, h.isMaster, h.trackerServer]

theorem settled_setEnv {node : Node} {env : Enviroment}
    (h : env.settings = node.fdcsEnv.settings) : Settled node { node with fdcsEnv := env } where
  isMaster := rfl
  trackerServer := congrArg Settings.trackerServer h
  sendBuffers := rfl

/-- The message with another result and other records. -/
structure Restated (proto reply : TrackerProtocol) : Prop where
  protocolType : reply.protocolType = proto.protocolType
  responseSockAddr : reply.responseSockAddr = proto.responseSockAddr
  forwardingSockFd : reply.forwardingSockFd = proto.forwardingSockFd

theorem Restated.trans {proto reply reply' : TrackerProtocol} (h : Restated proto reply)
    (h' : Restated reply reply') : Restated proto reply' where
  protocolType := h'.protocolType.trans h.protocolType
  responseSockAddr := h'.responseSockAddr.trans h.responseSockAddr
  forwardingSockFd := h'.forwardingSockFd.trans h.forwardingSockFd

theorem ensures_taskCompleted {s : Handling} {proto : TrackerProtocol} :
    Ensures (taskCompleted pb around proto) s
      (fun _ t => Settled s.node t.node ∧ t.effects = s.effects) E := by
  rw [ensures_taskCompleted_iff]
  refine ⟨settled_setEnv ?_, rfl⟩
  rw [taskCompleted_snd, settings_foldl_completeTask]

theorem ensures_completeForwarded {s : Handling} {proto : TrackerProtocol} :
    Ensures (completeForwarded pb around proto) s
      (fun reply t => (Settled s.node t.node ∧ t.effects = s.effects) ∧ Restated proto reply)
      E := by
  rw [completeForwarded, ensures_ite]
  refine ⟨fun _ => ?_, fun _ => ⟨⟨⟨rfl, rfl, rfl⟩, rfl⟩, ⟨rfl, rfl, rfl⟩⟩⟩
  rw [ensures_bind]
  exact ensures_taskCompleted.imp fun completed t ht => ⟨ht, ⟨rfl, rfl, rfl⟩⟩

theorem ensures_replyIdleTask {s : Handling} {proto : TrackerProtocol} :
    Ensures (replyIdleTask pb around proto) s
      (fun reply t => (Settled s.node t.node ∧ t.effects = s.effects) ∧ Restated proto reply.2)
      E := by
  rw [replyIdleTask, ensures_bind, ensures_getIdleTask_iff]
  obtain ⟨quota, hquota⟩ := getIdleTask_env pb s.node.fdcsEnv around.nowTime
    s.node.iAmPrimaryMaster around.uninitialised proto
  refine ⟨⟨settled_setEnv ?_, rfl⟩, ?_⟩
  · rw [hquota]
    rfl
  · have hkept : Restated proto (MasterTasks.getIdleTask pb s.node.iAmPrimaryMaster
        around.uninitialised s.node.fdcsEnv around.nowTime proto).2.1 := by
      rw [MasterTasks.getIdleTask]
      split_ifs
      · exact ⟨rfl, rfl, rfl⟩
      · exact ⟨rfl, rfl, rfl⟩
    exact hkept.trans ⟨rfl, rfl, rfl⟩

theorem ensures_sendThenSignal {s : Handling} {proto : TrackerProtocol} {receiverFd : Int} :
    Ensures (do
        let _ ← sendProtocol proto receiverFd
        emit .taskExchangeSignal
        pure true) s
      (fun _ t => t.node = s.node ∧ sends t.effects = sends s.effects ++
        if receiverFd ∈ s.node.sendBuffers then [(receiverFd, stamped s.node proto)] else [])
      E := by
  simp only [sendProtocol, ensures_bind, ensures_get, ensures_ite, emit, ensures_modify,
    ensures_pure, true_and]
  refine ⟨fun hfd => ?_, fun hfd => ?_⟩
  · rw [if_pos hfd, sends_append, sends_append]
    exact List.append_nil _
  · rw [if_neg hfd, sends_append]
    rfl

/-- One message is sent at most, to the given descriptor if that has buffers. -/
structure Answers (node : Node) (proto : TrackerProtocol) (receiverFd : Int) (t : Handling) :
    Prop where
  settled : Settled node t.node
  sent : ∃ reply, Restated proto reply ∧ sends t.effects =
    if receiverFd ∈ node.sendBuffers then [(receiverFd, stamped node reply)] else []

theorem Answers.eq_stamped {node : Node} {proto : TrackerProtocol} {receiverFd : Int}
    {t : Handling} (h : Answers node proto receiverFd t) {sent : Int × TrackerProtocol}
    (hsent : sent ∈ sends t.effects) :
    ∃ reply, Restated proto reply ∧ sent.2 = stamped node reply := by
  obtain ⟨reply, hreply, heq⟩ := h.sent
  rw [heq] at hsent
  split_ifs at hsent
  · exact ⟨reply, hreply, congrArg Prod.snd (List.mem_singleton.mp hsent)⟩
  · cases hsent

theorem ensures_sendAnswer {node : Node} {s : Handling} {proto reply : TrackerProtocol}
    {receiverFd : Int} (hs : Settled node s.node) (heffects : sends s.effects = [])
    (hreply : Restated proto reply) :
    Ensures (do
        let _ ← sendProtocol reply receiverFd
        emit .taskExchangeSignal
        pure true) s (fun _ t => Answers node proto receiverFd t) E := by
  refine ensures_sendThenSignal.imp fun _ t ht => ?_
  obtain ⟨hnode, hsent⟩ := ht
  rw [heffects, List.nil_append, hs.stamped, hs.sendBuffers] at hsent
  exact ⟨hnode ▸ hs, reply, hreply, hsent⟩

theorem ensures_answers {node : Node} {socketFd : Int} {proto : TrackerProtocol}
    (htype : proto.protocolType = .workerRequestTask) (hanswers : forwards node proto = false) :
    Ensures (protocolProcess pb around socketFd proto) { node := node }
      (fun _ t => Answers node proto
        (if node.iAmPrimaryMaster then socketFd else proto.forwardingSockFd) t) E := by
  rw [ensures_protocolProcess_iff htype, processWorkerRequestTask, ensures_bind, ensures_get]
  refine ensures_ite.mpr ⟨fun hprimary => ?_, fun hsecondary => ?_⟩
  · rw [if_pos hprimary, ensures_bind]
    refine ensures_taskCompleted.imp fun completed t ht => ?_
    rw [ensures_bind]
    refine ensures_replyIdleTask.imp fun reply u hu => ?_
    have hreply : Restated proto reply.2 :=
      ⟨hu.2.protocolType, hu.2.responseSockAddr, hu.2.forwardingSockFd⟩
    refine ensures_sendAnswer (ht.1.trans hu.1.1) ?_ hreply
    rw [hu.1.2, ht.2]
    rfl
  · rw [if_neg hsecondary]
    refine ensures_ite.mpr ⟨fun hfirst => ?_, fun _ => ?_⟩
    · simp [forwards, hsecondary, hfirst] at hanswers
    · rw [ensures_bind]
      refine ensures_completeForwarded.imp fun proto' t ht => ?_
      rw [ensures_bind]
      refine ensures_replyIdleTask.imp fun reply u hu => ?_
      have hreply : Restated proto reply.2 := ht.2.trans hu.2
      have hsettled : Settled node u.node := ht.1.1.trans hu.1.1
      have heffects : sends u.effects = [] := by
        rw [hu.1.2, ht.1.2]
        rfl
      rw [← hreply.forwardingSockFd]
      refine ensures_ite.mpr ⟨fun _ => ?_, fun _ => ?_⟩
      · rw [ensures_bind, emit, ensures_modify]
        refine ensures_sendAnswer hsettled ?_ hreply
        rw [sends_append, heffects]
        rfl
      · exact ensures_sendAnswer hsettled heffects hreply

theorem ensures_forwards {node : Node} {socketFd : Int} {proto : TrackerProtocol}
    (htype : proto.protocolType = .workerRequestTask) (hforwards : forwards node proto = true) :
    Ensures (protocolProcess pb around socketFd proto) { node := node }
      (fun _ t => t.node = node ∧ ∀ sent ∈ sends t.effects,
        sent.2 = stamped node { proto with forwardingSockFd := socketFd })
      fun _ => True := by
  obtain ⟨hsecondary, hfirst⟩ : node.iAmPrimaryMaster = false ∧
      contains proto.responseSockAddr node.trackerServer = false := by
    simpa [forwards] using hforwards
  refine ensures_secondary htype hsecondary hfirst (fun primaryFd => ?_) ?_
  · refine ensures_sendThenSignal.imp fun _ t ht => ⟨ht.1, fun sent hsent => ?_⟩
    rw [ht.2] at hsent
    split_ifs at hsent
    · obtain rfl := List.mem_singleton.mp hsent
      rfl
    · cases hsent
  · exact ⟨rfl, fun sent hsent => absurd hsent List.not_mem_nil⟩

end Handling

/-- The route of a message in the message itself: the last hop wrote its
descriptor, and the masters that forwarded are among the addresses passed. -/
structure Recorded (packet : Packet) : Prop where
  protocolType : packet.proto.protocolType = .workerRequestTask
  last : ∀ hop rest, packet.route = hop :: rest → packet.proto.forwardingSockFd = hop.socketFd
  passed : ∀ hop ∈ packet.route, contains packet.proto.responseSockAddr hop.master = true

/-- A master at its address has buffers for its open descriptors. -/
structure Attached (connection : End → Option Nat) (own : Str) (node : Node) : Prop where
  isMaster : node.isMaster = true
  trackerServer : node.trackerServer = own
  sendBuffers : ∀ socketFd, socketFd ∈ node.sendBuffers ↔ (connection ⟨own, socketFd⟩).isSome

structure Inv (s : State) : Prop where
  attached : ∀ own node, s.masters own = some node → Attached s.connection own node
  recorded : ∀ packet ∈ s.inFlight, Recorded packet

section Steps

variable {pb : Protobuf} {around : Surroundings} {s t : State}

theorem Attached.of_settled {connection : End → Option Nat} {own : Str} {node node' : Node}
    (h : Attached connection own node) (hsettled : Settled node node') :
    Attached connection own node' where
  isMaster := hsettled.isMaster.trans h.isMaster
  trackerServer := hsettled.trackerServer.trans h.trackerServer
  sendBuffers socketFd := by rw [hsettled.sendBuffers]; exact h.sendBuffers socketFd

theorem Inv.setMaster (hs : Inv s) {own : Str} {node : Node}
    (hnode : Attached s.connection own node) :
    Inv { s with masters := Function.update s.masters own (some node) } where
  attached other node' hother := by
    dsimp only at hother ⊢
    rcases eq_or_ne other own with rfl | hne
    · rw [Function.update_self] at hother
      exact Option.some.inj hother ▸ hnode
    · rw [Function.update_of_ne hne] at hother
      exact hs.attached other node' hother
  recorded := hs.recorded

theorem Inv.send (hs : Inv s) {packets : List Packet} (hpackets : ∀ p ∈ packets, Recorded p)
    (answers : List Answer) :
    Inv { s with inFlight := s.inFlight ++ packets, answers := answers } where
  attached := hs.attached
  recorded p hp := (List.mem_append.mp hp).elim (hs.recorded p) (hpackets p)

theorem Inv.erase (hs : Inv s) (index : Nat) :
    Inv { s with inFlight := s.inFlight.eraseIdx index } where
  attached := hs.attached
  recorded p hp := hs.recorded p (List.mem_of_mem_eraseIdx hp)

theorem Inv.setEnd (hs : Inv s) {e : End} {connection : Option Nat}
    {buffers : List Int → List Int}
    (hbuffers : ∀ old socketFd, socketFd ∈ buffers old ↔
      if socketFd = e.socketFd then connection.isSome = true else socketFd ∈ old) :
    Inv (s.setEnd e connection buffers) where
  attached own node hnode := by
    simp only [State.setEnd] at hnode ⊢
    rcases eq_or_ne own e.process with rfl | hne
    · rw [Function.update_self] at hnode
      obtain ⟨before, hbefore, rfl⟩ := Option.map_eq_some_iff.mp hnode
      have hattached := hs.attached _ _ hbefore
      refine ⟨hattached.isMaster, hattached.trackerServer, fun socketFd => ?_⟩
      rw [hbuffers, hattached.sendBuffers socketFd]
      split_ifs with hfd
      · subst hfd
        rw [Function.update_self]
      · have hend : (⟨e.process, socketFd⟩ : End) ≠ e := fun h => hfd (congrArg End.socketFd h)
        rw [Function.update_of_ne hend]
    · rw [Function.update_of_ne hne] at hnode
      have hattached := hs.attached _ _ hnode
      refine ⟨hattached.isMaster, hattached.trackerServer, fun socketFd => ?_⟩
      have hend : (⟨own, socketFd⟩ : End) ≠ e := fun h => hne (congrArg End.process h)
      rw [Function.update_of_ne hend, hattached.sendBuffers socketFd]
  recorded := hs.recorded

theorem Inv.attach (hs : Inv s) (e e' : End) : Inv (s.attach e e') := by
  have hset : Inv (s.setEnd e (some s.connections) fun buffers => e.socketFd :: buffers) := by
    refine hs.setEnd fun old socketFd => ?_
    rw [List.mem_cons]
    split_ifs with hfd
    · exact iff_of_true (Or.inl hfd) rfl
    · exact or_iff_right hfd
  exact ⟨hset.attached, hset.recorded⟩

theorem Inv.detach (hs : Inv s) (e : End) : Inv (s.detach e) := by
  refine hs.setEnd fun old socketFd => ?_
  split_ifs with hfd
  · simp [hfd]
  · simp [hfd]

/-- The process that takes the place of another has no descriptors yet. -/
theorem Inv.restart (hs : Inv s) {own : Str} {node : Option Node}
    (hnode : ∀ fresh, node = some fresh → fresh.isMaster = true ∧ fresh.trackerServer = own ∧
      fresh.sendBuffers = []) : Inv (s.restart own node) where
  attached other node' hother := by
    simp only [State.restart] at hother ⊢
    rcases eq_or_ne other own with rfl | hne
    · rw [Function.update_self] at hother
      obtain ⟨hmaster, hserver, hnone⟩ := hnode node' hother
      refine ⟨hmaster, hserver, fun socketFd => ?_⟩
      rw [hnone, if_pos rfl]
      exact iff_of_false List.not_mem_nil Bool.false_ne_true
    · rw [Function.update_of_ne hne] at hother
      have hattached := hs.attached _ _ hother
      refine ⟨hattached.isMaster, hattached.trackerServer, fun socketFd => ?_⟩
      rw [if_neg hne, hattached.sendBuffers socketFd]
  recorded := hs.recorded

/-- A message that a master forwards remembers its hop, one that it answers
goes back with its route. -/
theorem recorded_packets (hs : Inv s) {packet : Packet} (hpacket : Recorded packet) {node : Node}
    (hnode : s.masters packet.destination.process = some node) {h : Handling} {ok : Bool}
    (hrun : (protocolProcess pb around packet.destination.socketFd packet.proto).run
      { node := node } = .ok (ok, h)) :
    Settled node h.node ∧
      ∀ p ∈ s.packets packet.destination.process
        (if forwards node packet.proto then
          { master := packet.destination.process
            socketFd := packet.destination.socketFd
            connection := packet.connection } :: packet.route
        else packet.route) h.effects, Recorded p := by
  have hattached := hs.attached _ _ hnode
  have hstamped : ∀ proto : TrackerProtocol,
      contains (stamped node proto).responseSockAddr packet.destination.process = true := by
    intro proto
    rw [← hattached.trackerServer]
    exact contains_stamped hattached.isMaster proto
  cases hforwards : forwards node packet.proto with
  | true =>
      obtain ⟨hsame, hsent⟩ :=
        (ensures_forwards hpacket.protocolType hforwards).of_run_eq_ok hrun
      refine ⟨hsame ▸ ⟨rfl, rfl, rfl⟩, fun p hp => ?_⟩
      obtain ⟨⟨receiverFd, proto⟩, hmem, hp⟩ := List.mem_filterMap.mp hp
      obtain ⟨connection, _, rfl⟩ := Option.map_eq_some_iff.mp hp
      obtain rfl := hsent _ hmem
      refine ⟨hpacket.protocolType, ?_, ?_⟩
      · rintro hop rest hroute
        cases hroute
        rfl
      · intro hop hhop
        rcases List.mem_cons.mp hhop with rfl | hold
        · exact hstamped _
        · exact contains_stamped_of_contains (hpacket.passed hop hold)
  | false =>
      have hanswers :=
        (ensures_answers (E := fun _ => True) hpacket.protocolType hforwards).of_run_eq_ok hrun
      refine ⟨hanswers.settled, fun p hp => ?_⟩
      obtain ⟨⟨receiverFd, proto⟩, hmem, hp⟩ := List.mem_filterMap.mp hp
      obtain ⟨connection, _, rfl⟩ := Option.map_eq_some_iff.mp hp
      obtain ⟨reply, hreply, rfl⟩ := hanswers.eq_stamped hmem
      refine ⟨hreply.protocolType.trans hpacket.protocolType, ?_, ?_⟩
      · intro hop rest hroute
        exact hreply.forwardingSockFd.trans (hpacket.last hop rest hroute)
      · intro hop hhop
        apply contains_stamped_of_contains
        rw [hreply.responseSockAddr]
        exact hpacket.passed hop hhop

/-- A master that has forwarded the message before answers it. -/
theorem forwards_of_ownHop (hs : Inv s) {packet : Packet} (hpacket : Recorded packet)
    {node : Node} (hnode : s.masters packet.destination.process = some node) {hop : Hop}
    (hhop : packet.ownHop = some hop) :
    hop.master = packet.destination.process ∧ forwards node packet.proto = false := by
  have hmaster : hop.master = packet.destination.process := by
    simpa using List.find?_some hhop
  have hpassed := hpacket.passed hop (List.mem_of_find?_eq_some hhop)
  rw [hmaster, ← (hs.attached _ _ hnode).trackerServer] at hpassed
  refine ⟨hmaster, ?_⟩
  rw [forwards, hpassed, Bool.not_true, Bool.and_false]

/-- The descriptor of the answer is what its belief and the last hop give. -/
theorem sentOn_eq (hs : Inv s) {packet : Packet} (hpacket : Recorded packet) {node : Node}
    (hnode : s.masters packet.destination.process = some node) {hop : Hop}
    (hhop : packet.ownHop = some hop) {h : Handling} {ok : Bool}
    (hrun : (protocolProcess pb around packet.destination.socketFd packet.proto).run
      { node := node } = .ok (ok, h)) :
    (sends h.effects).map Prod.fst =
      if (s.connection ⟨hop.master, answerFd packet node⟩).isSome then [answerFd packet node]
      else [] := by
  obtain ⟨hmaster, hanswers⟩ := forwards_of_ownHop hs hpacket hnode hhop
  have hfd : (if node.iAmPrimaryMaster then packet.destination.socketFd
      else packet.proto.forwardingSockFd) = answerFd packet node := by
    rw [answerFd]
    cases hroute : packet.route with
    | nil => rfl
    | cons last rest => rw [hpacket.last last rest hroute]
  obtain ⟨_, reply, _, hsent⟩ :=
    (ensures_answers (E := fun _ => True) hpacket.protocolType hanswers).of_run_eq_ok hrun
  rw [hfd] at hsent
  have hiff := (hs.attached _ _ hnode).sendBuffers (answerFd packet node)
  rw [← hmaster] at hiff
  rw [hsent]
  split_ifs with hbuffer hopen hopen
  · rfl
  · exact absurd (hiff.mp hbuffer) hopen
  · exact absurd (hiff.mpr hopen) hbuffer
  · rfl

theorem onRoute_iff {packet : Packet} {node : Node} {hop : Hop} {sentOn : List Int}
    (hsent : sentOn = if (s.connection ⟨hop.master, answerFd packet node⟩).isSome then
      [answerFd packet node] else []) :
    (Answer.mk hop (s.stillOpen hop) sentOn).OnRoute ↔ Returns s packet node hop := by
  subst hsent
  rw [Answer.OnRoute, Returns]
  cases hopen : s.stillOpen hop with
  | true =>
      have hconnection : s.connection ⟨hop.master, hop.socketFd⟩ = some hop.connection :=
        of_decide_eq_true hopen
      rw [if_pos rfl, if_pos rfl]
      constructor
      · intro hsent
        split_ifs at hsent
        · exact List.singleton_inj.mp hsent
      · intro hfd
        rw [hfd, hconnection]
        rfl
  | false =>
      rw [if_neg Bool.false_ne_true, if_neg Bool.false_ne_true]
      cases s.connection ⟨hop.master, answerFd packet node⟩ with
      | none => exact iff_of_true rfl rfl
      | some connection => exact iff_of_false (List.cons_ne_nil _ _) (Option.some_ne_none _)

theorem answeredWhereAsked_append (hanswered : AnsweredWhereAsked s) {answers : List Answer}
    (ht : t.answers = s.answers ++ answers) :
    AnsweredWhereAsked t ↔ ∀ answer ∈ answers, answer.OnRoute := by
  rw [AnsweredWhereAsked, ht]
  constructor
  · exact fun h answer hmem => h answer (List.mem_append_right _ hmem)
  · exact fun h answer hmem => (List.mem_append.mp hmem).elim (hanswered answer) (h answer)

variable (pb around) in
theorem receive_spec (hs : Inv s) (hanswered : AnsweredWhereAsked s) {packet : Packet}
    (hpacket : Recorded packet) :
    (AnsweredWhereAsked (s.receive pb around packet) ↔
        ∀ node hop, s.masters packet.destination.process = some node →
          packet.ownHop = some hop → Returns s packet node hop) ∧
      Inv (s.receive pb around packet) := by
  rw [State.receive]
  cases hnode : s.masters packet.destination.process with
  | none => exact ⟨iff_of_true hanswered fun _ _ h => (nomatch h), hs⟩
  | some node =>
      dsimp only
      cases hrun : (protocolProcess pb around packet.destination.socketFd packet.proto).run
          { node := node } with
      | error fault =>
          refine ⟨iff_of_true hanswered fun _ hop _ hhop => ?_, hs.restart fun _ h => nomatch h⟩
          -- the branches that answer have no fault
          obtain ⟨_, hanswers⟩ := forwards_of_ownHop hs hpacket hnode hhop
          exact ((ensures_answers (E := fun _ => False) hpacket.protocolType
            hanswers).of_run_eq_error hrun).elim
      | ok result =>
          obtain ⟨ok, h⟩ := result
          obtain ⟨hsettled, hpackets⟩ := recorded_packets hs hpacket hnode hrun
          refine ⟨?_, ?_⟩
          · refine (answeredWhereAsked_append hanswered rfl).trans ?_
            cases hhop : packet.ownHop with
            | none => exact iff_of_true (fun _ hmem => nomatch hmem) fun _ _ _ h => nomatch h
            | some hop =>
                have hiff := onRoute_iff (sentOn_eq hs hpacket hnode hhop hrun)
                constructor
                · rintro hanswers _ _ ⟨rfl⟩ ⟨rfl⟩
                  exact hiff.mp (hanswers _ List.mem_cons_self)
                · rintro hreturns answer hmem
                  obtain rfl := List.mem_singleton.mp hmem
                  exact hiff.mpr (hreturns node hop rfl rfl)
          · have hset := hs.setMaster ((hs.attached _ _ hnode).of_settled hsettled)
            exact hset.send hpackets _

theorem mem_returned {index : Nat} {packet : Packet} {node : Node} {hop : Hop} :
    (packet, node, hop) ∈ s.returned index ↔
      s.arriving index = some packet ∧ s.masters packet.destination.process = some node ∧
        packet.ownHop = some hop := by
  simp only [State.returned, Option.mem_def, Option.bind_eq_some_iff, Option.map_eq_some_iff]
  constructor
  · rintro ⟨_, harriving, _, hnode, _, hhop, heq⟩
    cases heq
    exact ⟨harriving, hnode, hhop⟩
  · rintro ⟨harriving, hnode, hhop⟩
    exact ⟨packet, harriving, node, hnode, hop, hhop, rfl⟩

theorem deliver_spec (hanswered : AnsweredWhereAsked s) (hs : Inv s) {index : Nat}
    (h : step pb s (.deliver index around) = some t) :
    (AnsweredWhereAsked t ↔ ReturnsOnRoute s (.deliver index around)) ∧ Inv t := by
  simp only [step] at h
  split_ifs at h
  have hleft := hs.erase index
  cases harriving : s.arriving index with
  | none =>
      rw [harriving] at h
      cases h
      refine ⟨iff_of_true hanswered fun returned hreturned => ?_, hleft⟩
      rw [State.returned, harriving] at hreturned
      cases hreturned
  | some packet =>
      rw [harriving] at h
      cases h
      have hmem : packet ∈ s.inFlight :=
        List.mem_of_getElem? (Option.eq_some_of_filter_eq_some harriving)
      obtain ⟨hiff, hinv⟩ := receive_spec pb around hleft hanswered (hs.recorded packet hmem)
      refine ⟨hiff.trans ⟨?_, ?_⟩, hinv⟩
      · rintro hreturns ⟨packet', node, hop⟩ hreturned
        obtain ⟨harrives, hnode, hhop⟩ := mem_returned.mp hreturned
        obtain rfl : packet = packet' := Option.some.inj (harriving.symm.trans harrives)
        exact hreturns node hop hnode hhop
      · intro hreturns node hop hnode hhop
        exact hreturns _ (mem_returned.mpr ⟨harriving, hnode, hhop⟩)

theorem step_spec (hanswered : AnsweredWhereAsked s) (hs : Inv s) {a : Action}
    (h : step pb s a = some t) : (AnsweredWhereAsked t ↔ ReturnsOnRoute s a) ∧ Inv t := by
  cases a with
  | openConnection e e' =>
      simp only [step] at h
      split_ifs at h
      cases h
      have hinv := (hs.attach e e').attach e' e
      exact ⟨iff_of_true hanswered trivial, hinv.attached, hinv.recorded⟩
  | closeSocket e =>
      cases h
      exact ⟨iff_of_true hanswered trivial, hs.detach e⟩
  | restart own node =>
      simp only [step] at h
      split_ifs at h with hfresh
      cases h
      refine ⟨iff_of_true hanswered trivial, hs.restart ?_⟩
      rintro fresh rfl
      simpa [and_assoc] using hfresh
  | change own node =>
      simp only [step] at h
      split_ifs at h with hsame
      cases h
      refine ⟨iff_of_true hanswered trivial, hs.setMaster ?_⟩
      simp only [Bool.and_eq_true, decide_eq_true_eq] at hsame
      obtain ⟨⟨hmaster, hserver⟩, hbuffers⟩ := hsame
      obtain ⟨before, hbefore, hbuffers⟩ := Option.map_eq_some_iff.mp hbuffers
      refine ⟨hmaster, hserver, fun socketFd => ?_⟩
      rw [← hbuffers]
      exact (hs.attached _ _ hbefore).sendBuffers socketFd
  | request e proto =>
      simp only [step] at h
      split_ifs at h with hrequest
      obtain ⟨connection, _, rfl⟩ := Option.map_eq_some_iff.mp h
      simp only [Bool.and_eq_true, decide_eq_true_eq] at hrequest
      refine ⟨iff_of_true hanswered trivial, hs.send (fun p hp => ?_) s.answers⟩
      obtain rfl := List.mem_singleton.mp hp
      exact ⟨hrequest.2, fun _ _ h => (nomatch h), fun _ h => (nomatch h)⟩
  | deliver index around => exact deliver_spec hanswered hs h

end Steps

/-- Every answer of a master to a request that it has forwarded goes out on the
descriptor and the connection of the request, exactly when every message that
comes back finds the connection open and the number of its descriptor kept. -/
theorem answered_where_asked_iff {pb : Protobuf} {as : List Action} {t : State}
    (hrun : run (step pb) {} as = some t) :
    Throughout (step pb) AnsweredWhereAsked {} as ↔ Along (step pb) ReturnsOnRoute {} as := by
  have hanswered : AnsweredWhereAsked {} := fun _ h => nomatch h
  have hinv : Inv {} := ⟨fun _ _ h => (nomatch h), fun _ h => (nomatch h)⟩
  exact throughout_iff_along (fun _ _ _ hanswered hs h => step_spec hanswered hs h) hanswered hinv
    hrun

section Runs

def masterKnowing (own primary : String) (primaryFd : Int) : Node where
  fdcsEnv :=
    { settings :=
        { trackerGroup := "10.0.0.1:1;10.0.0.2:1;10.0.0.3:1".toList
          trackerServer := own.toList } }
  primarySockaddr := primary.toList
  masterSockets := OrderedMap.empty.set primary.toList primaryFd

def start (own primary : String) (primaryFd : Int) : Action :=
  .restart own.toList (some (masterKnowing own primary primaryFd))

def connect (process : String) (socketFd : Int) (process' : String) (socketFd' : Int) : Action :=
  .openConnection ⟨process.toList, socketFd⟩ ⟨process'.toList, socketFd'⟩

def firstWorkerAsks : Action := .request ⟨['w'], 4⟩ { protocolType := .workerRequestTask }

/-- The first master forwards to the second, which is the primary. -/
def oneHopRun : List Action :=
  [start "10.0.0.1:1" "10.0.0.2:1" 5, start "10.0.0.2:1" "10.0.0.2:1" 5,
    connect "w" 4 "10.0.0.1:1" 7, connect "10.0.0.1:1" 5 "10.0.0.2:1" 6, firstWorkerAsks] ++
    List.replicate 4 (.deliver 0 aroundNow)

theorem oneHopRun_answered_where_asked :
    Throughout (step plainProtobuf) AnsweredWhereAsked {} oneHopRun := by
  have hruns : (run (step plainProtobuf) {} oneHopRun).isSome = true := by decide +kernel
  obtain ⟨t, hrun⟩ := Option.isSome_iff_exists.mp hruns
  exact (answered_where_asked_iff hrun).mpr (by decide +kernel)

/-- The second master takes the third for the primary and forwards what it has
received on its descriptor 6, which is another worker's at the first. -/
def twoHopRun : List Action :=
  [start "10.0.0.1:1" "10.0.0.2:1" 5, start "10.0.0.2:1" "10.0.0.3:1" 8,
    start "10.0.0.3:1" "10.0.0.3:1" 5, connect "w" 4 "10.0.0.1:1" 7,
    connect "v" 4 "10.0.0.1:1" 6, connect "10.0.0.1:1" 5 "10.0.0.2:1" 6,
    connect "10.0.0.2:1" 8 "10.0.0.3:1" 9, firstWorkerAsks] ++
    List.replicate 5 (.deliver 0 aroundNow)

def straying : Answer :=
  { hop := ⟨"10.0.0.1:1".toList, 7, 0⟩, stillOpen := true, sentOn := [6] }

theorem not_every_answer_where_asked :
    ¬∀ (pb : Protobuf) (as : List Action) (t : State), run (step pb) {} as = some t →
      AnsweredWhereAsked t := by
  intro hall
  have hanswers : (run (step plainProtobuf) {} twoHopRun).map
      (fun t => decide (straying ∈ t.answers)) = some true := by
    decide +kernel
  obtain ⟨t, hrun, hmem⟩ := Option.map_eq_some_iff.mp hanswers
  have hanswered := hall _ _ t hrun straying (of_decide_eq_true hmem)
  exact absurd hanswered (by decide)

end Runs

end FastDCS.ReturnRoute
