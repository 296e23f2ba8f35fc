import FastDCS.Master
import FastDCS.Worker

/-!
What the `CHECK`s leave behind: every address a running node has a socket for is
of the form ip:port, and so is the own address of a master.
-/

namespace FastDCS.CheckedNodes

open FastDCS.Strings
open FastDCS.Messages
open FastDCS.Handlers
open FastDCS.Tracker
open FastDCS.Connections
open FastDCS.Runs

/-- What `CheckIP` wants of an address. -/
def IpAndPort (address : Str) : Prop := (splitStringUsing address ':').length = 2

instance (address : Str) : Decidable (IpAndPort address) := inferInstanceAs (Decidable (_ = _))

/-- A connection has a descriptor behind those of the standard streams, as the
`CHECK` of a connector wants it. -/
def Dials (around : Surroundings) : Prop :=
  ∀ k address fd, around.connect k address = some fd → 0 < fd

structure Checked (node : Node) : Prop where
  sockets : ∀ address fd, node.masterSockets.find? address = some fd →
    IpAndPort address ∧ 0 < fd
  server : node.isMaster = true → IpAndPort node.trackerServer

section Handlers

variable {α β : Type} {pb : Protobuf} {around : Surroundings}

/-- Where it returns, the handler leaves the node checked. -/
def Guarded (x : Handler α) : Prop :=
  ∀ s, Checked s.node → Ensures x s (fun _ t => Checked t.node) fun _ => True

theorem Guarded.bind {x : Handler α} {f : α → Handler β} (hx : Guarded x)
    (hf : ∀ a, Guarded (f a)) : Guarded (x >>= f) := by
  intro s hs
  rw [ensures_bind]
  exact (hx s hs).imp fun a t ht => hf a t ht

theorem Guarded.ite {c : Prop} [Decidable c] {x y : Handler α} (hx : Guarded x)
    (hy : Guarded y) : Guarded (if c then x else y) := by
  split_ifs
  · exact hx
  · exact hy

theorem guarded_pure (a : α) : Guarded (pure a : Handler α) := fun _ hs => hs

theorem guarded_get : Guarded (get : Handler Handling) := fun _ hs => hs

theorem guarded_throw (fault : Fault) : Guarded (throw fault : Handler α) := fun _ _ => trivial

theorem guarded_emit (effect : Effect) : Guarded (emit effect) := fun _ hs => hs

theorem guarded_check (condition : Bool) : Guarded (check condition) := by
  cases condition with
  | true => exact guarded_pure _
  | false => exact guarded_throw _

theorem guarded_modifyEnv {f : Enviroment → Enviroment}
    (hf : ∀ env, (f env).settings = env.settings) : Guarded (modifyEnv f) := by
  intro s hs
  refine ⟨hs.sockets, fun hmaster => ?_⟩
  have hserver := hs.server hmaster
  rw [Node.trackerServer] at hserver ⊢
  rw [← hf s.node.fdcsEnv] at hserver
  exact hserver

theorem guarded_setPrimary (address : Node → Str) :
    Guarded (modifyNode fun node => { node with primarySockaddr := address node }) :=
  fun _ hs => ⟨hs.sockets, hs.server⟩

theorem guarded_masterSocketFd (address : Str) : Guarded (masterSocketFd address) := by
  refine guarded_get.bind fun h => ?_
  split
  · exact guarded_pure _
  · exact guarded_throw _

theorem guarded_sendProtocol (proto : TrackerProtocol) (fd : Int) :
    Guarded (sendProtocol proto fd) := fun _ hs => ensures_sendProtocol fun _ _ => hs

theorem guarded_connectMaster (hdials : Dials around) (address : Str) :
    Guarded (connectMaster around address) := by
  intro s hs
  simp only [connectMaster, ensures_bind, ensures_get, ensures_ite, ensures_pure]
  refine ⟨fun _ => hs, fun _ => ⟨fun _ => hs, fun _ => ?_⟩⟩
  refine ensures_check (Or.inr trivial) fun hcheck => ?_
  rw [ensures_modify]
  cases hconnect : around.connect s.attempts address with
  | none => exact hs
  | some fd =>
      simp only [ensures_bind, modifyNode, ensures_modify]
      refine ensures_addSocketResource fun buffers => ⟨?_, hs.server⟩
      intro other otherFd hother
      rw [OrderedMap.find?_set] at hother
      split_ifs at hother with heq
      · obtain rfl := Option.some.inj hother
        rw [heq]
        exact ⟨of_decide_eq_true hcheck, hdials _ _ _ hconnect⟩
      · exact hs.sockets other otherFd hother

theorem guarded_nextMasterAddress (address : Str) : Guarded (nextMasterAddress address) :=
  guarded_get.bind fun _ => (guarded_check _).bind fun _ => guarded_pure _

theorem guarded_findNextMasterLoop (hdials : Dials around) (fuel : Nat) (address : Str) :
    Guarded (findNextMasterLoop around fuel address) := by
  induction fuel generalizing address with
  | zero => exact guarded_throw _
  | succ fuel ih =>
      refine guarded_get.bind fun h => (guarded_pure _).ite ?_
      refine (guarded_connectMaster hdials address).bind fun ok => Guarded.ite ?_ ?_
      · exact guarded_masterSocketFd address
      · exact (guarded_nextMasterAddress address).bind fun next => ih next

theorem guarded_findNextMaster (hdials : Dials around) : Guarded (findNextMaster around) :=
  guarded_get.bind fun _ => (guarded_nextMasterAddress _).bind fun next =>
    guarded_findNextMasterLoop hdials _ next

theorem guarded_masterGroupChanged (hdials : Dials around) :
    Guarded (masterGroupChanged around) := by
  refine guarded_get.bind fun h => (guarded_pure _).ite ?_
  refine (guarded_findNextMaster hdials).bind fun fd => (guarded_pure _).ite ?_
  exact guarded_get.bind fun _ => guarded_sendProtocol _ _

theorem guarded_socketClose (hdials : Dials around) (fd : Int) (guestAddr : Str) :
    Guarded (socketClose around fd guestAddr) := by
  have hremove : Guarded
      (removeSocketResource fd >>= fun _ => (return true : Handler Bool)) :=
    Guarded.bind (fun _ hs => ⟨hs.sockets, hs.server⟩) fun _ => guarded_pure _
  have herase : Guarded (modifyNode fun node =>
      { node with masterSockets := node.masterSockets.erase guestAddr }) := by
    intro s hs
    refine ⟨fun other otherFd hother => ?_, hs.server⟩
    rw [OrderedMap.find?_erase] at hother
    split_ifs at hother
    exact hs.sockets other otherFd hother
  refine guarded_get.bind fun h => Guarded.ite ?_ hremove
  refine herase.bind fun _ => Guarded.ite ?_ ?_
  · exact (guarded_setPrimary fun _ => []).bind fun _ => hremove
  · exact (guarded_masterGroupChanged hdials).bind fun _ => hremove

end Handlers

section Masters

open FastDCS.Master

variable {α β : Type} {pb : Protobuf} {around : Surroundings}

theorem guarded_addProtoFdcsTime (proto : TrackerProtocol) :
    Guarded (addProtoFdcsTime pb around proto) :=
  fun _ hs => ensures_addProtoFdcsTime pb around (Or.inl trivial) fun _ => hs

theorem guarded_addPrimaryTime (proto : TrackerProtocol) :
    Guarded (addPrimaryTime pb around proto) :=
  guarded_get.bind fun _ => (guarded_addProtoFdcsTime proto).ite (guarded_pure proto)

theorem guarded_upgradeTracker : Guarded upgradeTracker :=
  (guarded_modifyEnv (f := Enviroment.initFdcsTimeDiffer) fun _ => rfl).bind fun _ =>
    (guarded_emit _).bind fun _ => guarded_pure _

theorem guarded_becomePrimary : Guarded becomePrimary :=
  (guarded_setPrimary fun node => node.trackerServer).bind fun _ => guarded_upgradeTracker

theorem guarded_election (hdials : Dials around) : Guarded (election around) := by
  refine (guarded_findNextMaster hdials).bind fun fd => guarded_becomePrimary.ite ?_
  exact guarded_get.bind fun _ => guarded_sendProtocol _ _

theorem guarded_coordinator (hdials : Dials around) (trackerAddr : Str) :
    Guarded (coordinator pb around trackerAddr) := by
  refine (guarded_findNextMaster hdials).bind fun fd => guarded_becomePrimary.ite ?_
  refine guarded_get.bind fun h => ?_
  exact (guarded_addProtoFdcsTime _).bind fun _ => guarded_sendProtocol _ _

theorem guarded_joinMasterGroup (hdials : Dials around) (proto : TrackerProtocol) :
    Guarded (joinMasterGroup pb around proto) := by
  refine guarded_get.bind fun h => (guarded_pure _).ite ?_
  refine (guarded_connectMaster hdials _).bind fun ok => Guarded.ite ?_ (guarded_pure _)
  refine Guarded.bind (guarded_modifyEnv (f := fun env =>
    env.calcFdcsTimeDiffer around.nowTime (protoFdcsTime pb around proto)) fun _ => rfl) fun _ => ?_
  refine (guarded_masterSocketFd _).bind fun fd => guarded_get.bind fun _ => ?_
  exact guarded_sendProtocol _ _

theorem guarded_connectOnlineMaster (hdials : Dials around) (allMaster : Str) :
    Guarded (connectOnlineMaster around allMaster) := by
  rw [connectOnlineMaster]
  induction splitStringUsing allMaster ';' with
  | nil => exact guarded_pure _
  | cons address rest ih =>
      exact ((guarded_connectMaster hdials address).bind fun _ => guarded_pure _).bind fun _ => ih

theorem guarded_continueTransferProto (hdials : Dials around) (proto : TrackerProtocol) :
    Guarded (continueTransferProto around proto) := by
  refine (guarded_findNextMaster hdials).bind fun fd => (guarded_pure _).ite ?_
  exact (guarded_sendProtocol _ _).bind fun _ => guarded_pure _

theorem guarded_requestTaskDuplicate : Guarded (requestTaskDuplicate around) := by
  refine guarded_get.bind fun h => (guarded_pure _).ite ?_
  exact (guarded_masterSocketFd _).bind fun fd => guarded_sendProtocol _ _

theorem guarded_heartBeat (hdials : Dials around) : Guarded (heartBeat around) := by
  refine guarded_get.bind fun h => Guarded.ite (Guarded.ite ?_ (guarded_pure _)) ?_
  · exact guarded_requestTaskDuplicate.bind fun _ => guarded_pure _
  · refine Guarded.bind ?_ fun _ => guarded_pure _
    refine (guarded_findNextMaster hdials).bind fun fd => (guarded_election hdials).ite ?_
    exact guarded_get.bind fun _ => guarded_sendProtocol _ _

/-- A handler that works on the tasks writes nothing but the `Enviroment`. -/
theorem guarded_of_settings {x : Handler α}
    (hx : ∀ s, Ensures x s (fun _ t => ∃ env : Enviroment, env.settings = s.node.fdcsEnv.settings ∧
      t.node = { s.node with fdcsEnv := env }) fun _ => True) : Guarded x := by
  intro s hs
  refine (hx s).imp fun _ t ht => ?_
  obtain ⟨env, hsettings, hnode⟩ := ht
  rw [hnode]
  refine ⟨hs.sockets, fun hmaster => ?_⟩
  have hserver := hs.server hmaster
  rw [Node.trackerServer] at hserver ⊢
  rw [← hsettings] at hserver
  exact hserver

theorem guarded_taskCompleted (proto : TrackerProtocol) :
    Guarded (taskCompleted pb around proto) := by
  refine guarded_of_settings fun s => ?_
  rw [ensures_taskCompleted_iff]
  refine ⟨_, ?_, rfl⟩
  rw [MasterTasks.taskCompleted_snd, MasterTasks.settings_foldl_completeTask]

theorem guarded_getIdleTask (proto : TrackerProtocol) :
    Guarded (getIdleTask pb around proto) := by
  refine guarded_of_settings fun s => ?_
  rw [ensures_getIdleTask_iff]
  refine ⟨_, ?_, rfl⟩
  obtain ⟨quota, hquota⟩ := MasterTasks.getIdleTask_env pb s.node.fdcsEnv around.nowTime
    s.node.iAmPrimaryMaster around.uninitialised proto
  rw [hquota]
  rfl

theorem guarded_sendTaskDuplicate (proto : TrackerProtocol) (fd : Int) :
    Guarded (sendTaskDuplicate pb around proto fd) := by
  intro s hs
  simp only [sendTaskDuplicate, ensures_bind, ensures_get, ensures_ite, ensures_pure, modifyEnv,
    modifyNode, ensures_modify]
  refine ⟨fun _ => hs, fun _ => ?_⟩
  have hstore : Checked { s.node with
      fdcsEnv := (MasterTasks.sendTaskDuplicate pb s.node.fdcsEnv around.nowTime proto).2 } := by
    obtain ⟨quota, hquota⟩ := MasterTasks.sendTaskDuplicate_env pb s.node.fdcsEnv
      around.nowTime proto
    rw [hquota]
    exact ⟨hs.sockets, hs.server⟩
  cases (MasterTasks.sendTaskDuplicate pb s.node.fdcsEnv around.nowTime proto).1 with
  | none => exact hstore
  | some duplicate =>
      rw [ensures_bind]
      exact guarded_sendProtocol duplicate fd _ hstore

theorem guarded_saveTaskDuplicate (proto : TrackerProtocol) :
    Guarded (saveTaskDuplicate pb proto) :=
  Guarded.bind (guarded_modifyEnv (f := fun env => MasterTasks.saveTaskDuplicate pb env proto)
    fun _ => MasterTasks.settings_saveTaskDuplicate pb proto) fun _ => guarded_pure _

theorem guarded_replyIdleTask (proto : TrackerProtocol) :
    Guarded (replyIdleTask pb around proto) :=
  (guarded_getIdleTask proto).bind fun _ => guarded_pure _

theorem guarded_completeForwarded (proto : TrackerProtocol) :
    Guarded (completeForwarded pb around proto) :=
  ((guarded_taskCompleted proto).bind fun _ => guarded_pure _).ite (guarded_pure _)

theorem guarded_processElection (hdials : Dials around) (closed : Bool)
    (proto : TrackerProtocol) : Guarded (processElection pb around closed proto) := by
  refine Guarded.ite (guarded_get.bind fun h => ?_) ?_
  · dsimp only
    split
    · exact (guarded_coordinator hdials _).bind fun _ => guarded_pure _
    · exact guarded_pure _
  · exact (guarded_continueTransferProto hdials proto).bind fun _ => guarded_pure _

theorem guarded_processCoordinator (hdials : Dials around) (closed : Bool)
    (proto : TrackerProtocol) : Guarded (processCoordinator pb around closed proto) := by
  have hrest : Guarded (if closed = true then do
      if proto.responseResult = (← get).node.trackerServer then
        let _ ← upgradeTracker
      return true
    else do
      let _ ← joinMasterGroup pb around proto
      continueTransferProto around proto
      return true) := by
    refine Guarded.ite (guarded_get.bind fun h => Guarded.ite ?_ (guarded_pure _)) ?_
    · exact guarded_upgradeTracker.bind fun _ => guarded_pure _
    · refine (guarded_joinMasterGroup hdials proto).bind fun _ => ?_
      exact (guarded_continueTransferProto hdials proto).bind fun _ => guarded_pure _
  exact (guarded_check _).bind fun _ => (guarded_setPrimary _).bind fun _ => hrest

theorem guarded_processAskTracker (hdials : Dials around) (closed : Bool)
    (proto : TrackerProtocol) : Guarded (processAskTracker pb around closed proto) := by
  have hcontinue : ∀ proto, Guarded (do
      continueTransferProto around proto
      return true) := fun proto =>
    (guarded_continueTransferProto hdials proto).bind fun _ => guarded_pure _
  refine guarded_get.bind fun h => (guarded_addPrimaryTime proto).bind fun stamped => ?_
  refine Guarded.ite (Guarded.ite (guarded_election hdials) ?_) (Guarded.ite ?_ (Guarded.ite ?_ ?_))
  · refine (guarded_check _).bind fun _ => (guarded_setPrimary _).bind fun _ => ?_
    refine (guarded_connectMaster hdials _).bind fun _ => ?_
    exact (guarded_joinMasterGroup hdials _).bind fun _ => guarded_pure _
  · exact hcontinue _
  · exact guarded_election hdials
  · exact hcontinue _

theorem guarded_processWorkerRequestTask (fd : Int) (proto : TrackerProtocol) :
    Guarded (processWorkerRequestTask pb around fd proto) := by
  have hreply : ∀ reply receiver, Guarded (do
      let _ ← sendProtocol reply receiver
      emit .taskExchangeSignal
      pure true) := fun reply receiver =>
    (guarded_sendProtocol _ _).bind fun _ => (guarded_emit _).bind fun _ => guarded_pure _
  refine guarded_get.bind fun h => Guarded.ite ?_ (Guarded.ite (Guarded.ite ?_ ?_) ?_)
  · refine (guarded_taskCompleted _).bind fun completed => ?_
    exact (guarded_replyIdleTask _).bind fun reply => hreply _ _
  · exact (guarded_masterSocketFd _).bind fun primaryFd => hreply _ _
  · exact (guarded_emit _).bind fun _ => guarded_pure _
  · refine (guarded_completeForwarded _).bind fun proto => ?_
    refine (guarded_replyIdleTask _).bind fun reply => Guarded.ite ?_ (hreply _ _)
    exact (guarded_emit _).bind fun _ => hreply _ _

theorem guarded_masterProtocolProcess (hdials : Dials around) (fd : Int)
    (proto : TrackerProtocol) : Guarded (protocolProcess pb around fd proto) := by
  have hend : Guarded (pure true : Handler Bool) := guarded_pure true
  refine guarded_get.bind fun h => ?_
  dsimp only
  split
  · exact guarded_processElection hdials _ _
  · exact guarded_processCoordinator hdials _ _
  · exact guarded_processAskTracker hdials _ _
  · refine Guarded.ite ?_ hend
    exact (guarded_addProtoFdcsTime _).bind fun _ => (guarded_sendProtocol _ _).bind fun _ => hend
  · exact ((guarded_saveTaskDuplicate _).bind fun _ => hend).ite hend
  · refine Guarded.ite ?_ ?_
    · exact (guarded_sendTaskDuplicate _ _).bind fun _ => hend
    · exact (guarded_saveTaskDuplicate _).bind fun _ => hend
  · refine (guarded_connectMaster hdials _).bind fun _ => ?_
    exact (guarded_masterGroupChanged hdials).bind fun _ => hend
  · refine Guarded.ite ?_ hend
    refine (guarded_connectOnlineMaster hdials _).bind fun _ => ?_
    exact (guarded_continueTransferProto hdials _).bind fun _ => hend
  · exact (guarded_sendProtocol _ _).bind fun _ => hend
  · exact guarded_processWorkerRequestTask fd proto
  · exact hend

end Masters

section Workers

open FastDCS.Worker

variable (pb : Protobuf) (around : Surroundings)

/-- `RequestTask` as one call. -/
def requestTask (ownerMaster : Option Str) : Handler Bool := do
  if 0 < (← get).node.fdcsEnv.tasksSize then return false
  let masterFd ← findOwnerMaster around ownerMaster
  if masterFd = -1 then return false
  let node := (← get).node
  match int32ToKey node.fdcsEnv.settings.taskDuplicate with
  | none => throw .checkFailed
  | some requestArgs =>
      modifyEnv Enviroment.clearCompletedTasks
      sendProtocol (requestTaskProto pb node requestArgs node.fdcsEnv.completedTasks) masterFd

/-- `Worker::HeartBeat`. -/
def workerHeartBeat (ownerMaster : Option Str) : Handler Bool := do
  if (← get).node.iKnowPrimaryMaster then
    let _ ← requestTask pb around ownerMaster
    return true
  else
    let _ ← askTracker around
    return true

def saveNewTask (proto : TrackerProtocol) : Handler Bool := do
  if 0 < (← get).node.fdcsEnv.tasksSize then return false
  let newTasks := tasksUnder pb keyValuePairsTask proto
  if newTasks = [] then return true
  modifyEnv fun env => env.updateTasks newTasks
  return true

/-- `Worker::ProtocolProcess`. -/
def workerProtocolProcess (proto : TrackerProtocol) : Handler Bool :=
  match proto.protocolType with
  | .workerAskTracker => processAskTracker pb around proto
  | .workerRequestTask => do
      let _ ← saveNewTask pb proto
      return true
  | _ => return true

variable {pb} {around}

theorem guarded_findMasterLoop (hdials : Dials around) (masterSockaddr : List Str) :
    Guarded (findMasterLoop around masterSockaddr) := by
  induction masterSockaddr with
  | nil => exact guarded_pure _
  | cons masterAddr rest ih =>
      refine (guarded_connectMaster hdials masterAddr).bind fun ok => Guarded.ite ?_ ih
      exact guarded_masterSocketFd masterAddr

theorem guarded_findMaster (hdials : Dials around) : Guarded (findMaster around) :=
  guarded_get.bind fun _ => (guarded_check _).bind fun _ => guarded_findMasterLoop hdials _

theorem guarded_findOwnerMaster (hdials : Dials around) (ownerMaster : Option Str) :
    Guarded (findOwnerMaster around ownerMaster) := by
  cases ownerMaster with
  | none => exact guarded_pure _
  | some owner =>
      refine (guarded_connectMaster hdials owner).bind fun ok => Guarded.ite ?_ ?_
      · exact guarded_masterSocketFd owner
      · refine guarded_get.bind fun h => ?_
        refine (guarded_connectMaster hdials _).bind fun ok => Guarded.ite ?_ (guarded_pure _)
        exact guarded_masterSocketFd _

theorem guarded_requestTask (hdials : Dials around) (ownerMaster : Option Str) :
    Guarded (requestTask pb around ownerMaster) := by
  refine guarded_get.bind fun h => (guarded_pure _).ite ?_
  refine (guarded_findOwnerMaster hdials ownerMaster).bind fun fd => (guarded_pure _).ite ?_
  refine guarded_get.bind fun h => ?_
  dsimp only
  split
  · exact guarded_throw _
  · refine Guarded.bind (guarded_modifyEnv (f := Enviroment.clearCompletedTasks) fun _ => rfl) ?_
    exact fun _ => guarded_sendProtocol _ _

theorem guarded_workerHeartBeat (hdials : Dials around) (ownerMaster : Option Str) :
    Guarded (workerHeartBeat pb around ownerMaster) := by
  refine guarded_get.bind fun h => Guarded.ite ?_ ?_
  · exact (guarded_requestTask hdials ownerMaster).bind fun _ => guarded_pure _
  · refine Guarded.bind ?_ fun _ => guarded_pure _
    refine (guarded_findMaster hdials).bind fun fd => (guarded_pure _).ite ?_
    exact guarded_get.bind fun _ => guarded_sendProtocol _ _

theorem guarded_saveNewTask (proto : TrackerProtocol) : Guarded (saveNewTask pb proto) := by
  refine guarded_get.bind fun h => (guarded_pure _).ite ((guarded_pure _).ite ?_)
  refine Guarded.bind (guarded_modifyEnv (f := fun env =>
    env.updateTasks (tasksUnder pb keyValuePairsTask proto)) fun _ => rfl) fun _ => ?_
  exact guarded_pure _

theorem guarded_workerProtocolProcess (hdials : Dials around) (proto : TrackerProtocol) :
    Guarded (workerProtocolProcess pb around proto) := by
  rw [workerProtocolProcess]
  split
  · refine (guarded_setPrimary _).bind fun _ => ?_
    refine Guarded.bind (guarded_modifyEnv (f := fun env =>
      env.calcFdcsTimeDiffer around.nowTime (protoFdcsTime pb around proto)) fun _ => rfl) ?_
    intro _
    refine (guarded_connectMaster hdials _).bind fun _ => ?_
    exact (guarded_emit _).bind fun _ => guarded_pure _
  · exact (guarded_saveNewTask proto).bind fun _ => guarded_pure _
  · exact guarded_pure _

end Workers

section Runs

/-- How a node comes up: a master listens, a worker finds a master. -/
inductive Start where
  | master (settings : Settings) (listenFd : Int)
  | worker (settings : Settings) (workerSockaddr : Str) (around : Surroundings)

/-- What happens to a node: a message, a heart beat, a closed or an accepted
socket, and what its other threads do to the tasks. -/
inductive Event where
  | receive (around : Surroundings) (socketFd : Int) (proto : TrackerProtocol)
  | heartBeat (around : Surroundings) (ownerMaster : Option Str)
  | socketClose (around : Surroundings) (socketFd : Int) (guestAddr : Str)
  | accept (socketFd : Int)
  | setTasks (tasks : OrderedMap Str FdcsTask) (completedTasks : List FdcsTask)

variable (pb : Protobuf)

def after {α : Type} (handler : Handler α) (node : Node) : Option (α × Node) :=
  match handler.run { node := node } with
  | .error _ => none
  | .ok (a, h) => some (a, h.node)

/-- `InitialTracker`, where its `CHECK`s hold. -/
def Start.node : Start → Option Node
  | .master settings listenFd =>
      if IpAndPort settings.trackerServer ∧ 0 < listenFd then
        some
          { fdcsEnv := { settings := settings }
            masterSockets := OrderedMap.empty.set settings.trackerServer listenFd
            sendBuffers := [listenFd] }
      else none
  | .worker settings workerSockaddr around =>
      match after (Worker.findMaster around)
        { fdcsEnv := { settings := settings }, isMaster := false } with
      | some (masterFd, node) =>
          if 0 < masterFd then some { node with workerSockaddr := workerSockaddr } else none
      | none => none

def protocolProcess (around : Surroundings) (node : Node) (socketFd : Int)
    (proto : TrackerProtocol) : Handler Bool :=
  if node.isMaster then Master.protocolProcess pb around socketFd proto
  else workerProtocolProcess pb around proto

def heartBeat (around : Surroundings) (node : Node) (ownerMaster : Option Str) : Handler Bool :=
  if node.isMaster then Master.heartBeat around else workerHeartBeat pb around ownerMaster

/-- A handler that faults leaves no node. -/
def step (node : Node) : Event → Option Node
  | .receive around socketFd proto =>
      (after (protocolProcess pb around node socketFd proto) node).map Prod.snd
  | .heartBeat around ownerMaster => (after (heartBeat pb around node ownerMaster) node).map Prod.snd
  | .socketClose around socketFd guestAddr =>
      (after (socketClose around socketFd guestAddr) node).map Prod.snd
  | .accept socketFd => (after (addSocketResource socketFd) node).map Prod.snd
  | .setTasks tasks completedTasks =>
      some { node with
        fdcsEnv := { node.fdcsEnv with tasks := tasks, completedTasks := completedTasks } }

def Start.Dials : Start → Prop
  | .master _ _ => True
  | .worker _ _ around => CheckedNodes.Dials around

def Event.Dials : Event → Prop
  | .receive around _ _ => CheckedNodes.Dials around
  | .heartBeat around _ => CheckedNodes.Dials around
  | .socketClose around _ _ => CheckedNodes.Dials around
  | .accept _ => True
  | .setTasks _ _ => True

variable {pb}

theorem Guarded.checked_of_after {α : Type} {handler : Handler α} (h : Guarded handler)
    {node node' : Node} {a : α} (hnode : Checked node)
    (hafter : after handler node = some (a, node')) : Checked node' := by
  rw [after] at hafter
  split at hafter
  · cases hafter
  · next b t hrun =>
      cases hafter
      exact (h { node := node } hnode).of_run_eq_ok hrun

theorem checked_start {start : Start} {node : Node} (hdials : start.Dials)
    (h : start.node = some node) : Checked node := by
  cases start with
  | master settings listenFd =>
      rw [Start.node] at h
      split_ifs at h with hchecks
      cases h
      refine ⟨fun address fd hfind => ?_, fun _ => hchecks.1⟩
      rw [OrderedMap.find?_set] at hfind
      split_ifs at hfind with heq
      · cases hfind
        rw [heq]
        exact hchecks
      · cases hfind
  | worker settings workerSockaddr around =>
      rw [Start.node] at h
      split at h
      · next masterFd found hafter =>
          split_ifs at h
          cases h
          have hempty : Checked { fdcsEnv := { settings := settings }, isMaster := false } := by
            constructor
            · intro address fd hfind
              cases hfind
            · intro hmaster
              cases hmaster
          have hfound := (guarded_findMaster hdials).checked_of_after hempty hafter
          exact ⟨hfound.sockets, hfound.server⟩
      · cases h

theorem guarded_protocolProcess {around : Surroundings} (hdials : Dials around) (node : Node)
    (socketFd : Int) (proto : TrackerProtocol) :
    Guarded (protocolProcess pb around node socketFd proto) :=
  (guarded_masterProtocolProcess hdials socketFd proto).ite
    (guarded_workerProtocolProcess hdials proto)

theorem checked_step {node node' : Node} {event : Event} (hnode : Checked node)
    (hdials : event.Dials) (h : step pb node event = some node') : Checked node' := by
  have hafter : ∀ {α : Type} {handler : Handler α}, Guarded handler →
      (after handler node).map Prod.snd = some node' → Checked node' := by
    intro α handler hguarded hsome
    obtain ⟨r, hr, rfl⟩ := Option.map_eq_some_iff.mp hsome
    exact hguarded.checked_of_after hnode hr
  cases event with
  | receive around socketFd proto => exact hafter (guarded_protocolProcess hdials _ _ _) h
  | heartBeat around ownerMaster =>
      have hbeat : Guarded (heartBeat pb around node ownerMaster) :=
        (guarded_heartBeat hdials).ite (guarded_workerHeartBeat hdials ownerMaster)
      exact hafter hbeat h
  | socketClose around socketFd guestAddr =>
      exact hafter (guarded_socketClose hdials socketFd guestAddr) h
  | accept socketFd =>
      have haccept : Guarded (addSocketResource socketFd) := fun _ hs =>
        ensures_addSocketResource fun _ => ⟨hs.sockets, hs.server⟩
      exact hafter haccept h
  | setTasks tasks completedTasks =>
      cases h
      exact ⟨hnode.sockets, hnode.server⟩

/-- A node that came up, after whatever it has met since. -/
def Reachable (pb : Protobuf) (node : Node) : Prop :=
  ∃ (start : Start) (first : Node) (events : List Event), start.Dials ∧
    start.node = some first ∧ (∀ event ∈ events, event.Dials) ∧
      run (step pb) first events = some node

theorem Reachable.checked {node : Node} (h : Reachable pb node) : Checked node := by
  obtain ⟨start, first, events, hdials, hstart, hevents, hrun⟩ := h
  exact invariant_along (fun _ _ _ hnode => checked_step hnode) (checked_start hdials hstart)
    (along_of_forall hevents first) hrun

end Runs

end FastDCS.CheckedNodes
