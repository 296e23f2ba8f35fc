import FastDCS.Tracker

/-!
`master.cc`: the heart beat of a master and its handling of every message.
-/

namespace FastDCS.Master

open FastDCS.Strings
open FastDCS.Messages
open FastDCS.Handlers
open FastDCS.Tracker

variable (pb : Protobuf) (around : Surroundings)

/-- `ClosedCircle`: the message came back to its originator, or has passed here
already. -/
def closedCircle (node : Node) (proto : TrackerProtocol) : Bool :=
  decide (proto.requestSockAddr = node.trackerServer) ||
    contains proto.responseSockAddr node.trackerServer

def upgradeTracker : Handler Bool := do
  modifyEnv Enviroment.initFdcsTimeDiffer
  emit .masterSignal
  return true

def becomePrimary : Handler Bool := do
  modifyNode fun node => { node with primarySockaddr := node.trackerServer }
  upgradeTracker

def addProtoFdcsTime (proto : TrackerProtocol) : Handler TrackerProtocol := do
  match int32ToKey ((← get).node.fdcsEnv.fdcsTime around.nowTime) with
  | none => throw .checkFailed
  | some fdcsTime =>
      return { proto with
        keyValuesPairs := proto.keyValuesPairs ++
          [writePair pb { key := keyValuePairsFdcsTime }
            { key := keyValuePairsFdcsTime, value := fdcsTime }] }

/-- Adding the time changes the records of the message and nothing else, where
the time is one the key functions can write. -/
theorem ensures_addProtoFdcsTime {s : Handling} {proto : TrackerProtocol}
    {Q : TrackerProtocol → Handling → Prop} {E : Fault → Prop}
    (hcheck : E .checkFailed ∨ 0 ≤ s.node.fdcsEnv.fdcsTime around.nowTime)
    (hQ : ∀ pairs, Q { proto with keyValuesPairs := pairs } s) :
    Ensures (addProtoFdcsTime pb around proto) s Q E := by
  simp only [addProtoFdcsTime, ensures_bind, ensures_get, int32ToKey]
  split_ifs with hneg
  · rcases hcheck with hcheck | hle
    · exact hcheck
    · omega
  · exact hQ _

def election : Handler Bool := do
  let nextMasterFd ← findNextMaster around
  if nextMasterFd = -1 then becomePrimary
  else sendProtocol (newTrackerProtocol (← get).node .election) nextMasterFd

def coordinator (trackerAddr : Str) : Handler Bool := do
  let nextMasterFd ← findNextMaster around
  if nextMasterFd = -1 then becomePrimary
  else
    let proto := newTrackerProtocol (← get).node .coordinator
    let proto ← addProtoFdcsTime pb around { proto with responseResult := trackerAddr }
    sendProtocol proto nextMasterFd

def joinMasterGroup (proto : TrackerProtocol) : Handler Bool := do
  let node := (← get).node
  if !node.iKnowPrimaryMaster || decide (node.primarySockaddr = node.trackerServer) then
    return false
  if (← connectMaster around node.primarySockaddr) then
    modifyEnv fun env => env.calcFdcsTimeDiffer around.nowTime (protoFdcsTime pb around proto)
    let primaryFd ← masterSocketFd node.primarySockaddr
    sendProtocol (newTrackerProtocol (← get).node .masterJoinGroup) primaryFd
  else return false

def connectOnlineMaster (allMaster : Str) : Handler PUnit :=
  (splitStringUsing allMaster ';').forM fun address => do
    let _ ← connectMaster around address

def continueTransferProto (proto : TrackerProtocol) : Handler PUnit := do
  let nextMasterFd ← findNextMaster around
  if nextMasterFd = -1 then return ⟨⟩
  let _ ← sendProtocol proto nextMasterFd

def askTracker : Handler Bool := do
  let nextMasterFd ← findNextMaster around
  if nextMasterFd = -1 then election around
  else sendProtocol (newTrackerProtocol (← get).node .masterAskTracker) nextMasterFd

/-- `RequestTaskDuplicate` of a secondary without idle tasks. -/
def requestTaskDuplicate : Handler Bool := do
  let node := (← get).node
  if node.iAmPrimaryMaster || !node.iKnowPrimaryMaster ||
      decide (0 < node.fdcsEnv.idleTasksSize around.nowTime) then
    return false
  let primaryFd ← masterSocketFd node.primarySockaddr
  sendProtocol (newTrackerProtocol node .requestTaskDuplicate) primaryFd

def heartBeat : Handler Bool := do
  let node := (← get).node
  if node.iKnowPrimaryMaster then
    if !node.iAmPrimaryMaster then
      let _ ← requestTaskDuplicate around
  else
    let _ ← askTracker around
  return true

def taskCompleted (proto : TrackerProtocol) : Handler Bool := do
  let result := MasterTasks.taskCompleted pb (← get).node.fdcsEnv around.nowTime proto
  modifyEnv fun _ => result.2
  return result.1

/-- `GetIdleTask`, which also changes the message it is given. -/
def getIdleTask (proto : TrackerProtocol) : Handler (Bool × TrackerProtocol) := do
  let node := (← get).node
  let result := MasterTasks.getIdleTask pb node.iAmPrimaryMaster around.uninitialised
    node.fdcsEnv around.nowTime proto
  modifyEnv fun _ => result.2.2
  return (result.1, result.2.1)

theorem ensures_taskCompleted_iff {s : Handling} {proto : TrackerProtocol}
    {Q : Bool → Handling → Prop} {E : Fault → Prop} :
    Ensures (taskCompleted pb around proto) s Q E ↔
      let result := MasterTasks.taskCompleted pb s.node.fdcsEnv around.nowTime proto
      Q result.1 { s with node := { s.node with fdcsEnv := result.2 } } := by
  simp only [taskCompleted, ensures_bind, ensures_get, modifyEnv, modifyNode, ensures_modify,
    ensures_pure]

theorem ensures_getIdleTask_iff {s : Handling} {proto : TrackerProtocol}
    {Q : Bool × TrackerProtocol → Handling → Prop} {E : Fault → Prop} :
    Ensures (getIdleTask pb around proto) s Q E ↔
      let result := MasterTasks.getIdleTask pb s.node.iAmPrimaryMaster around.uninitialised
        s.node.fdcsEnv around.nowTime proto
      Q (result.1, result.2.1) { s with node := { s.node with fdcsEnv := result.2.2 } } := by
  simp only [getIdleTask, ensures_bind, ensures_get, modifyEnv, modifyNode, ensures_modify,
    ensures_pure]

def sendTaskDuplicate (proto : TrackerProtocol) (receiverFd : Int) : Handler Bool := do
  let node := (← get).node
  if !node.iAmPrimaryMaster then return false
  let result := MasterTasks.sendTaskDuplicate pb node.fdcsEnv around.nowTime proto
  modifyEnv fun _ => result.2
  match result.1 with
  | some duplicate =>
      let _ ← sendProtocol duplicate receiverFd
      return true
  | none => return true

def saveTaskDuplicate (proto : TrackerProtocol) : Handler Bool := do
  modifyEnv fun env => MasterTasks.saveTaskDuplicate pb env proto
  return true

/-- The address an election that has gone round announces: the last one of the
group among those passed. -/
def electionResult (masterAddr : List Str) (passMaster : Str) : Option Str :=
  masterAddr.reverse.find? fun trackerAddr => contains passMaster trackerAddr

def processElection (closed : Bool) (proto : TrackerProtocol) : Handler Bool := do
  if closed then
    let node := (← get).node
    let passMaster := proto.responseSockAddr ++ ';' :: node.trackerServer
    match electionResult (splitStringUsing node.trackerGroup ';') passMaster with
    | some trackerAddr =>
        let _ ← coordinator pb around trackerAddr
        return true
    | none => return true
  else
    continueTransferProto around proto
    return true

def processCoordinator (closed : Bool) (proto : TrackerProtocol) : Handler Bool := do
  checkIP proto.responseResult
  modifyNode fun node => { node with primarySockaddr := proto.responseResult }
  if closed then
    -- the connection to the new primary is commented out in the source
    if proto.responseResult = (← get).node.trackerServer then
      let _ ← upgradeTracker
    return true
  else
    let _ ← joinMasterGroup pb around proto
    continueTransferProto around proto
    return true

def addPrimaryTime (proto : TrackerProtocol) : Handler TrackerProtocol := do
  if (← get).node.iAmPrimaryMaster then addProtoFdcsTime pb around proto else return proto

theorem ensures_addPrimaryTime {s : Handling} {proto : TrackerProtocol}
    {Q : TrackerProtocol → Handling → Prop} {E : Fault → Prop}
    (hcheck : E .checkFailed ∨ 0 ≤ s.node.fdcsEnv.fdcsTime around.nowTime)
    (hQ : ∀ pairs, Q { proto with keyValuesPairs := pairs } s) :
    Ensures (addPrimaryTime pb around proto) s Q E := by
  simp only [addPrimaryTime, ensures_bind, ensures_get, ensures_ite, ensures_pure]
  exact ⟨fun _ => ensures_addProtoFdcsTime pb around hcheck hQ, fun _ => hQ proto.keyValuesPairs⟩

def processAskTracker (closed : Bool) (proto : TrackerProtocol) : Handler Bool := do
  let primarySockaddr := (← get).node.primarySockaddr
  let responseResult := proto.responseResult
  let proto ← addPrimaryTime pb around proto
  if closed then
    if responseResult.isEmpty then election around
    else
      checkIP responseResult
      modifyNode fun node => { node with primarySockaddr := responseResult }
      let _ ← connectMaster around responseResult
      let _ ← joinMasterGroup pb around proto
      return true
  else if responseResult.isEmpty then
    let proto :=
      if primarySockaddr.isEmpty then proto else { proto with responseResult := primarySockaddr }
    continueTransferProto around proto
    return true
  else if primarySockaddr ≠ responseResult ∧ !primarySockaddr.isEmpty then election around
  else
    continueTransferProto around proto
    return true

def verdict (completed : Bool) : Str :=
  if completed then responseResultSuccess else responseResultComplete

/-- A secondary completes the reports of a reply that says success. -/
def completeForwarded (proto : TrackerProtocol) : Handler TrackerProtocol := do
  if proto.responseResult = responseResultSuccess then
    let completed ← taskCompleted pb around proto
    return { proto with responseResult := verdict completed }
  else return proto

/-- The two ends of `WORKER_REQUEST_TASK`: `GetIdleTask` decides the result the
message goes back with. -/
def replyIdleTask (proto : TrackerProtocol) : Handler (Bool × TrackerProtocol) := do
  let result ← getIdleTask pb around proto
  return (result.1, { result.2 with responseResult := verdict result.1 })

def processWorkerRequestTask (socketFd : Int) (proto : TrackerProtocol) : Handler Bool := do
  let node := (← get).node
  if node.iAmPrimaryMaster then
    let completed ← taskCompleted pb around proto
    let reply ← replyIdleTask pb around { proto with responseResult := verdict completed }
    let _ ← sendProtocol reply.2 socketFd
  else if contains proto.responseSockAddr node.trackerServer = false then
    if node.iKnowPrimaryMaster then
      let primaryFd ← masterSocketFd node.primarySockaddr
      let _ ← sendProtocol { proto with forwardingSockFd := socketFd } primaryFd
  else
    let proto ← completeForwarded pb around proto
    let reply ← replyIdleTask pb around proto
    if !reply.1 then emit .heartBeatSignal
    let _ ← sendProtocol reply.2 reply.2.forwardingSockFd
  emit .taskExchangeSignal
  return true

def protocolProcess (socketFd : Int) (proto : TrackerProtocol) : Handler Bool := do
  let node := (← get).node
  let closed := closedCircle node proto
  match proto.protocolType with
  | .election => processElection pb around closed proto
  | .coordinator => processCoordinator pb around closed proto
  | .masterAskTracker => processAskTracker pb around closed proto
  | .workerAskTracker =>
      if !node.primarySockaddr.isEmpty then
        let proto ← addProtoFdcsTime pb around { proto with responseResult := node.primarySockaddr }
        let _ ← sendProtocol proto socketFd
      return true
  | .syncTaskDuplicate =>
      if !node.iAmPrimaryMaster then
        let _ ← saveTaskDuplicate pb proto
      return true
  | .requestTaskDuplicate =>
      if node.iAmPrimaryMaster then
        let _ ← sendTaskDuplicate pb around proto socketFd
      else
        let _ ← saveTaskDuplicate pb proto
      return true
  | .masterJoinGroup =>
      let _ ← connectMaster around proto.requestSockAddr
      let _ ← masterGroupChanged around
      return true
  | .masterGroupChanged =>
      if !closed then
        connectOnlineMaster around proto.requestArgs
        continueTransferProto around proto
      return true
  | .askTaskStatus =>
      let _ ← sendProtocol (getTaskStatus pb node proto) socketFd
      return true
  | .workerRequestTask => processWorkerRequestTask pb around socketFd proto
  | _ => return true

end FastDCS.Master
