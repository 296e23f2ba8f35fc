import FastDCS.Master
import FastDCS.Connections

/-!
A `WORKER_REQUEST_TASK` that goes from a secondary to the primary and back:
which results the two masters complete.
-/

namespace FastDCS.Forwarding

open FastDCS.Strings
open FastDCS.Messages
open FastDCS.MasterTasks
open FastDCS.Handlers
open FastDCS.Tracker
open FastDCS.Master
open FastDCS.Connections

variable {pb : Protobuf} {around : Surroundings}

def movedBy (before after : Node) : List FdcsTask :=
  after.fdcsEnv.completedTasks.drop before.fdcsEnv.completedTasks.length

theorem movedBy_of_append {before after : Node} {moved : List FdcsTask}
    (h : after.fdcsEnv.completedTasks = before.fdcsEnv.completedTasks ++ moved) :
    movedBy before after = moved := by
  rw [movedBy, h, List.drop_left]

def SendsOnly (proto : TrackerProtocol) (t : Handling) : Prop :=
  ∀ fd sent, Effect.send fd sent ∈ t.effects → sent = proto

def reports (pb : Protobuf) (proto : TrackerProtocol) : List FdcsTask :=
  tasksUnder pb keyValuePairsTaskComplete proto

def Quiet (s : Handling) : Prop := ∀ fd sent, Effect.send fd sent ∉ s.effects

theorem Quiet.sendsOnly {s : Handling} (h : Quiet s) (proto : TrackerProtocol) :
    SendsOnly proto s :=
  fun fd sent hsent => absurd hsent (h fd sent)

theorem sendsOnly_signal {proto : TrackerProtocol} {t : Handling} {signal : Effect}
    (h : SendsOnly proto t) (hsignal : ∀ fd sent, Effect.send fd sent ≠ signal) :
    SendsOnly proto { t with effects := t.effects ++ [signal] } := by
  intro fd sent hsent
  rcases List.mem_append.mp hsent with hold | hnew
  · exact h fd sent hold
  · exact absurd (List.mem_singleton.mp hnew) (hsignal fd sent)

theorem ensures_sendAndSignal {s : Handling} {proto : TrackerProtocol} {fd : Int}
    {E : Fault → Prop} (hquiet : Quiet s) :
    Ensures (do
        let _ ← sendProtocol proto fd
        emit .taskExchangeSignal
        pure true) s
      (fun _ t => t.node = s.node ∧ SendsOnly (stamped s.node proto) t) E := by
  simp only [sendProtocol, ensures_bind, ensures_get, ensures_ite, emit, ensures_modify,
    ensures_pure, true_and]
  have hsent : SendsOnly (stamped s.node proto)
      { s with effects := s.effects ++ [.send fd (stamped s.node proto)] } := by
    intro receiver sent hmem
    rcases List.mem_append.mp hmem with hold | hnew
    · exact absurd hold (hquiet receiver sent)
    · cases List.mem_singleton.mp hnew
      rfl
  exact ⟨fun _ => sendsOnly_signal hsent (by simp),
    fun _ => sendsOnly_signal (hquiet.sendsOnly _) (by simp)⟩

theorem ensures_protocolProcess_iff {s : Handling} {socketFd : Int} {proto : TrackerProtocol}
    {Q : Bool → Handling → Prop} {E : Fault → Prop}
    (htype : proto.protocolType = .workerRequestTask) :
    Ensures (protocolProcess pb around socketFd proto) s Q E ↔
      Ensures (processWorkerRequestTask pb around socketFd proto) s Q E := by
  rw [protocolProcess, ensures_bind, ensures_get, htype]

/-- What a secondary does with a message that has not passed it: it sends it to the
primary that it has a socket to, if it knows one. -/
theorem ensures_secondary {node : Node} {socketFd : Int} {proto : TrackerProtocol}
    {Q : Bool → Handling → Prop}
    (htype : proto.protocolType = .workerRequestTask)
    (hsecondary : node.iAmPrimaryMaster = false)
    (hfirst : contains proto.responseSockAddr node.trackerServer = false)
    (hsend : ∀ primaryFd, Ensures (do
        let _ ← sendProtocol { proto with forwardingSockFd := socketFd } primaryFd
        emit .taskExchangeSignal
        pure true) { node := node } Q fun _ => True)
    (hstop : Q true { node := node, effects := [.taskExchangeSignal] }) :
    Ensures (protocolProcess pb around socketFd proto) { node := node } Q fun _ => True := by
  rw [ensures_protocolProcess_iff htype, processWorkerRequestTask, ensures_bind, ensures_get,
    if_neg (by simpa using hsecondary), if_pos hfirst]
  refine ensures_ite.mpr ⟨fun _ => ?_, fun _ => hstop⟩
  rw [ensures_bind]
  cases hfind : node.masterSockets.find? node.primarySockaddr with
  | none =>
      simp only [masterSocketFd, ensures_bind, ensures_get, hfind, ensures_throw]
  | some primaryFd => exact ensures_masterSocketFd hfind (hsend primaryFd)

/-- A secondary the message has not passed yet sends it on to the primary,
marked with the socket of the worker. -/
theorem ensures_forward {node : Node} {socketFd : Int} {proto : TrackerProtocol}
    (htype : proto.protocolType = .workerRequestTask)
    (hsecondary : node.iAmPrimaryMaster = false)
    (hfirst : contains proto.responseSockAddr node.trackerServer = false) :
    Ensures (protocolProcess pb around socketFd proto) { node := node }
      (fun _ t => SendsOnly (stamped node { proto with forwardingSockFd := socketFd }) t)
      fun _ => True := by
  have hquiet : Quiet { node := node } := fun _ _ => List.not_mem_nil
  refine ensures_secondary htype hsecondary hfirst (fun primaryFd => ?_) ?_
  · exact (ensures_sendAndSignal hquiet).imp fun _ t ht => ht.2
  · exact sendsOnly_signal (hquiet.sendsOnly _) (by simp)

/-- A primary completes what it accepts of a forwarded message and sends it back
with its reports, saying success. -/
theorem ensures_primaryReply {node : Node} {socketFd : Int} {proto : TrackerProtocol}
    (htype : proto.protocolType = .workerRequestTask) (hprimary : node.iAmPrimaryMaster = true)
    (hforwarded : 0 < proto.forwardingSockFd) :
    Ensures (protocolProcess pb around socketFd proto) { node := node }
      (fun _ t =>
        movedBy node t.node =
            (acceptedReports around.nowTime node.fdcsEnv (reports pb proto)).map
              FdcsTask.clearLeaseTime ∧
          SendsOnly (stamped node { proto with responseResult := responseResultSuccess }) t)
      fun _ => True := by
  rw [ensures_protocolProcess_iff htype, processWorkerRequestTask, ensures_bind, ensures_get,
    if_pos hprimary]
  rw [ensures_bind, ensures_taskCompleted_iff, ensures_bind, replyIdleTask, ensures_bind,
    ensures_getIdleTask_iff]
  have hsettings : (MasterTasks.taskCompleted pb node.fdcsEnv around.nowTime proto).2.settings =
      node.fdcsEnv.settings := by
    rw [taskCompleted_snd, settings_foldl_completeTask]
  have hstill : Node.iAmPrimaryMaster { node with
      fdcsEnv := (MasterTasks.taskCompleted pb node.fdcsEnv around.nowTime proto).2 } = true := by
    rw [← hprimary, Node.iAmPrimaryMaster, Node.iAmPrimaryMaster, Node.trackerServer,
      Node.trackerServer, hsettings]
  -- a forwarded message takes the shortcut, which answers true whatever was completed
  simp only [hstill, MasterTasks.getIdleTask, if_pos (And.intro hforwarded trivial), ensures_pure]
  have hquiet : Quiet { node := { node with
      fdcsEnv := (MasterTasks.taskCompleted pb node.fdcsEnv around.nowTime proto).2 } } :=
    fun _ _ => List.not_mem_nil
  refine (ensures_sendAndSignal hquiet).imp fun _ t ht => ?_
  obtain ⟨hnode, hsends⟩ := ht
  refine ⟨movedBy_of_append ?_, ?_⟩
  · rw [hnode, taskCompleted_snd, completedTasks_foldl_completeTask]
    rfl
  · have hstamped : stamped { node with
        fdcsEnv := (MasterTasks.taskCompleted pb node.fdcsEnv around.nowTime proto).2 }
          { proto with responseResult := verdict true } =
        stamped node { proto with responseResult := responseResultSuccess } := by
      simp only [stamped, Node.trackerServer, hsettings]
      rfl
    rw [← hstamped]
    exact hsends

theorem ensures_sendAndSignal_node {s : Handling} {proto : TrackerProtocol} {fd : Int}
    {E : Fault → Prop} :
    Ensures (do
        let _ ← sendProtocol proto fd
        emit .taskExchangeSignal
        pure true) s (fun _ t => t.node = s.node) E := by
  simp only [sendProtocol, ensures_bind, ensures_get, ensures_ite, emit, ensures_modify,
    ensures_pure, implies_true, and_self]

theorem ensures_replyIdleTask_completedTasks {s : Handling} {proto : TrackerProtocol}
    {E : Fault → Prop} :
    Ensures (replyIdleTask pb around proto) s
      (fun _ t => t.node.fdcsEnv.completedTasks = s.node.fdcsEnv.completedTasks) E := by
  rw [replyIdleTask, ensures_bind, ensures_getIdleTask_iff]
  obtain ⟨quota, hquota⟩ := getIdleTask_env pb s.node.fdcsEnv around.nowTime
    s.node.iAmPrimaryMaster around.uninitialised proto
  have hkept := congrArg Enviroment.completedTasks hquota
  exact hkept

theorem ensures_secondaryReply {node : Node} {socketFd : Int} {proto : TrackerProtocol}
    (htype : proto.protocolType = .workerRequestTask) (hsecondary : node.iAmPrimaryMaster = false)
    (hpassed : contains proto.responseSockAddr node.trackerServer = true)
    (hsuccess : proto.responseResult = responseResultSuccess) :
    Ensures (protocolProcess pb around socketFd proto) { node := node }
      (fun _ t => movedBy node t.node =
        (acceptedReports around.nowTime node.fdcsEnv (reports pb proto)).map
          FdcsTask.clearLeaseTime)
      fun _ => True := by
  rw [ensures_protocolProcess_iff htype, processWorkerRequestTask, ensures_bind, ensures_get,
    if_neg (by simpa using hsecondary), if_neg (by simpa using hpassed), ensures_bind,
    completeForwarded, if_pos hsuccess, ensures_bind, ensures_taskCompleted_iff]
  refine (ensures_pure _).mpr ?_
  rw [ensures_bind]
  refine ensures_replyIdleTask_completedTasks.imp fun reply t ht => ?_
  have hmoved : ∀ u : Handling, u.node = t.node → movedBy node u.node =
      (acceptedReports around.nowTime node.fdcsEnv (reports pb proto)).map
        FdcsTask.clearLeaseTime := by
    intro u hu
    apply movedBy_of_append
    rw [hu, ht, taskCompleted_snd, completedTasks_foldl_completeTask]
    rfl
  refine ensures_ite.mpr ⟨fun _ => ?_, fun _ => ?_⟩
  · rw [ensures_bind, emit, ensures_modify]
    exact ensures_sendAndSignal_node.imp fun _ u hu => hmoved u hu
  · exact ensures_sendAndSignal_node.imp fun _ u hu => hmoved u hu

/-- A `WORKER_REQUEST_TASK` on its way: the secondary forwards it, the primary
handles it, and the secondary, possibly later and changed, handles the reply. -/
structure Round (pb : Protobuf) where
  secondary : Node
  primary : Node
  secondaryLater : Node
  proto : TrackerProtocol
  forwarded : TrackerProtocol
  reply : TrackerProtocol
  workerFd : Int
  forwardFd : Int
  primaryFd : Int
  replyFd : Int
  secondaryFd : Int
  aroundForward : Surroundings
  aroundPrimary : Surroundings
  aroundReply : Surroundings
  afterForward : Bool × Handling
  afterPrimary : Bool × Handling
  afterReply : Bool × Handling
  isRequest : proto.protocolType = .workerRequestTask
  workerSocket : 0 < workerFd
  isMaster : secondary.isMaster = true
  isSecondary : secondary.iAmPrimaryMaster = false
  firstPass : contains proto.responseSockAddr secondary.trackerServer = false
  forwards : (protocolProcess pb aroundForward workerFd proto).run { node := secondary } =
    .ok afterForward
  sendsForwarded : .send forwardFd forwarded ∈ afterForward.2.effects
  isPrimary : primary.iAmPrimaryMaster = true
  handles : (protocolProcess pb aroundPrimary primaryFd forwarded).run { node := primary } =
    .ok afterPrimary
  sendsReply : .send replyFd reply ∈ afterPrimary.2.effects
  sameServer : secondaryLater.trackerServer = secondary.trackerServer
  stillSecondary : secondaryLater.iAmPrimaryMaster = false
  processes : (protocolProcess pb aroundReply secondaryFd reply).run { node := secondaryLater } =
    .ok afterReply

namespace Round

/-- The secondary completes only tasks whose results the primary accepted. -/
def Agrees (round : Round pb) : Prop :=
  ∀ task ∈ movedBy round.secondaryLater round.afterReply.2.node,
    ∃ accepted ∈ movedBy round.primary round.afterPrimary.2.node, accepted.taskId = task.taskId

theorem forwarded_eq (round : Round pb) :
    round.forwarded =
      stamped round.secondary { round.proto with forwardingSockFd := round.workerFd } :=
  (ensures_forward round.isRequest round.isSecondary round.firstPass).of_run_eq_ok round.forwards
    _ _ round.sendsForwarded

theorem mem_ids_iff {now : Int} {env : Enviroment} {batch : List FdcsTask} {taskId : Str} :
    (∃ task ∈ (acceptedReports now env batch).map FdcsTask.clearLeaseTime,
        task.taskId = taskId) ↔
      taskId ∈ batch.map FdcsTask.taskId ∧ Accepts now env taskId := by
  rw [← mem_acceptedReports_ids]
  simp

/-- The two masters agree exactly when every reported task that the secondary
still holds with a running lease is held so by the primary too. -/
theorem agrees_iff (round : Round pb) :
    round.Agrees ↔
      ∀ taskId ∈ (reports pb round.proto).map FdcsTask.taskId,
        Accepts round.aroundReply.nowTime round.secondaryLater.fdcsEnv taskId →
          Accepts round.aroundPrimary.nowTime round.primary.fdcsEnv taskId := by
  have hforwarded := round.forwarded_eq
  have htype : round.forwarded.protocolType = .workerRequestTask := by
    rw [hforwarded]
    exact round.isRequest
  have hmarked : 0 < round.forwarded.forwardingSockFd := by
    rw [hforwarded]
    exact round.workerSocket
  obtain ⟨hprimary, hsends⟩ :=
    (ensures_primaryReply htype round.isPrimary hmarked).of_run_eq_ok round.handles
  have hreply := hsends _ _ round.sendsReply
  have hpassed : contains round.reply.responseSockAddr round.secondaryLater.trackerServer =
      true := by
    rw [hreply, round.sameServer]
    apply contains_stamped_of_contains
    rw [hforwarded]
    exact contains_stamped round.isMaster _
  have hsecondary := (ensures_secondaryReply (by rw [hreply]; exact htype) round.stillSecondary
    hpassed (by rw [hreply]; rfl)).of_run_eq_ok round.processes
  have hreports : reports pb round.reply = reports pb round.proto := by
    rw [hreply, hforwarded]
    rfl
  have hreports' : reports pb round.forwarded = reports pb round.proto := by
    rw [hforwarded]
    rfl
  rw [hreports] at hsecondary
  rw [hreports'] at hprimary
  rw [Agrees, hsecondary, hprimary]
  constructor
  · intro hagrees taskId hbatch haccepts
    obtain ⟨task, htask, rfl⟩ := mem_ids_iff.mpr ⟨hbatch, haccepts⟩
    exact (mem_ids_iff.mp (hagrees task htask)).2
  · intro hholds task htask
    obtain ⟨hbatch, haccepts⟩ := mem_ids_iff.mp ⟨task, htask, rfl⟩
    exact mem_ids_iff.mpr ⟨hbatch, hholds _ hbatch haccepts⟩

end Round

section Disagreement

def oneOfTwo (trackerServer : String) (env : OrderedMap Str FdcsTask) : Node where
  fdcsEnv :=
    { settings :=
        { trackerGroup := "10.0.0.1:1;10.0.0.2:1".toList
          trackerServer := trackerServer.toList }
      tasks := env }
  primarySockaddr := "10.0.0.2:1".toList
  masterSockets := OrderedMap.empty.set "10.0.0.2:1".toList 5
  sendBuffers := [5, 7]

def leasedTask : FdcsTask := { taskId := ['t'], leaseTime := some 9 }

def aroundNow : Surroundings where
  nowTime := 1
  connect _ _ := none
  loopFuel := 0

def outcome (socketFd : Int) (node : Node) (proto : TrackerProtocol) : Bool × Handling :=
  match (protocolProcess plainProtobuf aroundNow socketFd proto).run { node := node } with
  | .ok r => r
  | .error _ => (false, { node := node })

/-- The secondary holds a running lease of a task the primary does not know. -/
def unknownToPrimary : Round plainProtobuf :=
  let secondary := oneOfTwo "10.0.0.1:1" (OrderedMap.empty.insert ['t'] leasedTask)
  let primary := oneOfTwo "10.0.0.2:1" .empty
  let proto := taskReport plainProtobuf [{ taskId := ['t'] }]
  let forwarded := stamped secondary { proto with forwardingSockFd := 7 }
  let reply := stamped primary { forwarded with responseResult := responseResultSuccess }
  { secondary := secondary
    primary := primary
    secondaryLater := secondary
    proto := proto
    forwarded := forwarded
    reply := reply
    workerFd := 7
    forwardFd := 5
    primaryFd := 7
    replyFd := 7
    secondaryFd := 5
    aroundForward := aroundNow
    aroundPrimary := aroundNow
    aroundReply := aroundNow
    afterForward := outcome 7 secondary proto
    afterPrimary := outcome 7 primary forwarded
    afterReply := outcome 5 secondary reply
    isRequest := rfl
    workerSocket := by decide
    isMaster := rfl
    isSecondary := by decide
    firstPass := by decide
    forwards := by rfl
    sendsForwarded := by decide
    isPrimary := by decide
    handles := by rfl
    sendsReply := by decide
    sameServer := rfl
    stillSecondary := by decide
    processes := by rfl }

theorem not_every_round_agrees :
    ¬∀ (pb : Protobuf) (round : Round pb), round.Agrees := by
  intro h
  have hmoved : (movedBy unknownToPrimary.secondaryLater
      unknownToPrimary.afterReply.2.node).map FdcsTask.taskId = [['t']] := by decide
  have hnone : movedBy unknownToPrimary.primary unknownToPrimary.afterPrimary.2.node = [] := by
    decide
  obtain ⟨task, htask, _⟩ := List.mem_map.mp (hmoved ▸ List.mem_singleton_self ['t'])
  obtain ⟨accepted, haccepted, _⟩ := h plainProtobuf unknownToPrimary task htask
  rw [hnone] at haccepted
  cases haccepted

end Disagreement

end FastDCS.Forwarding
