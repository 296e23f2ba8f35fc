import Mathlib.Data.List.Flatten
import Mathlib.Logic.Function.Basic
import FastDCS.Connections
import FastDCS.Runs

/-!
`worker.cc`: the heart beat thread that reports results and asks for tasks, the
socket thread that saves new ones and the computing threads, one locked method
a step, and where the results of the computing threads are.
-/

namespace FastDCS.Worker

open FastDCS.Strings
open FastDCS.Messages
open FastDCS.Handlers
open FastDCS.Tracker
open FastDCS.Connections
open FastDCS.Runs

variable (pb : Protobuf)

section Handlers

variable (around : Surroundings)

/-- `FindOwnerMaster`, where the consistent hash finds an owner or none. -/
def findOwnerMaster (ownerMaster : Option Str) : Handler Int := do
  match ownerMaster with
  | none => return -1
  | some owner =>
      if (← connectMaster around owner) then masterSocketFd owner
      else
        let primary := (← get).node.primarySockaddr
        if (← connectMaster around primary) then masterSocketFd primary else return -1

def findMasterLoop : List Str → Handler Int
  | [] => return -1
  | masterAddr :: rest => do
      if (← connectMaster around masterAddr) then masterSocketFd masterAddr
      else findMasterLoop rest

def findMaster : Handler Int := do
  let masterSockaddr := splitStringUsing (← get).node.trackerGroup ';'
  check (decide (0 < masterSockaddr.length))
  findMasterLoop around masterSockaddr

def askTracker : Handler Bool := do
  let masterFd ← findMaster around
  if masterFd = -1 then return false
  sendProtocol (newTrackerProtocol (← get).node .workerAskTracker) masterFd

def processAskTracker (proto : TrackerProtocol) : Handler Bool := do
  modifyNode fun node => { node with primarySockaddr := proto.responseResult }
  modifyEnv fun env => env.calcFdcsTimeDiffer around.nowTime (protoFdcsTime pb around proto)
  let _ ← connectMaster around proto.responseResult
  emit .heartBeatSignal
  return true

def requestTaskProto (node : Node) (requestArgs : Str) (completed : List FdcsTask) :
    TrackerProtocol :=
  { newTrackerProtocol node .workerRequestTask with
    requestArgs := requestArgs
    keyValuesPairs := [writeTasks pb keyValuePairsTaskComplete completed] }

end Handlers

section Threads

/-- The next call of `RequestTask`, or `idle` between two heart beats. -/
inductive HeartBeatCall where
  | idle
  | findOwnerMaster
  | completedTasksSize (masterFd : Int) (i : Nat)
  | completedTasks (masterFd : Int) (i : Nat)
  | clearCompletedTasks (masterFd : Int)
  | sendProtocol (masterFd : Int)
deriving DecidableEq

inductive SocketCall where
  | idle
  | tasksSize (proto : TrackerProtocol)
  | updateTasks (newTasks : List FdcsTask)
deriving DecidableEq

inductive ComputingCall where
  | tasksSize
  | getIdleTask
  | computingUDF (taskId : Str)
  | taskCompleted (taskId : Str)
deriving DecidableEq

/-- A worker with its threads. `written` are the tasks in the message the heart
beat thread is filling. The record has the tasks that have left the completed
list, the messages for which `SendProtocol` has returned true, and the tasks in
those for which it has returned false. -/
structure State where
  node : Node
  heartBeat : HeartBeatCall := .idle
  written : List FdcsTask := []
  socket : SocketCall := .idle
  computing : Nat → ComputingCall := fun _ => .tasksSize
  removed : List FdcsTask := []
  sent : List TrackerProtocol := []
  discarded : List FdcsTask := []

/-- Which thread takes a step and what it meets: the network, the owner in the
consistent hash, the message received, the result of `ComputingUDF`. -/
inductive Action where
  | heartBeat (around : Surroundings) (ownerMaster : Option Str)
  | receive (around : Surroundings) (proto : TrackerProtocol)
  | socket
  | computing (thread : Nat) (now : Int) (result : FdcsTask → FdcsTask)
  | socketClose (around : Surroundings) (socketFd : Int) (guestAddr : Str)

def State.env (s : State) : Enviroment := s.node.fdcsEnv

def State.setEnv (s : State) (env : Enviroment) : State :=
  { s with node := { s.node with fdcsEnv := env } }

def State.after {α : Type} (s : State) (handler : Handler α) : Option (α × State) :=
  match handler.run { node := s.node } with
  | .error _ => none
  | .ok (a, h) => some (a, { s with node := h.node })

def heartBeatStep (around : Surroundings) (ownerMaster : Option Str) (s : State) : Option State :=
  match s.heartBeat with
  | .idle =>
      if s.node.iKnowPrimaryMaster then
        if 0 < s.env.tasksSize then some s else some { s with heartBeat := .findOwnerMaster }
      else (s.after (askTracker around)).map Prod.snd
  | .findOwnerMaster =>
      (s.after (findOwnerMaster around ownerMaster)).map fun r =>
        if r.1 = -1 then { r.2 with heartBeat := .idle }
        else { r.2 with heartBeat := .completedTasksSize r.1 0, written := [] }
  | .completedTasksSize masterFd i =>
      if i < s.env.completedTasksSize then
        some { s with heartBeat := .completedTasks masterFd i }
      else some { s with heartBeat := .clearCompletedTasks masterFd }
  | .completedTasks masterFd i =>
      s.env.completedTasks[i]?.map fun task =>
        { s with
          heartBeat := .completedTasksSize masterFd (i + 1), written := s.written ++ [task] }
  | .clearCompletedTasks masterFd =>
      some
        { s.setEnv s.env.clearCompletedTasks with
          heartBeat := .sendProtocol masterFd
          removed := s.removed ++ s.env.completedTasks }
  | .sendProtocol masterFd => do
      let requestArgs ← int32ToKey s.env.settings.taskDuplicate
      let proto := requestTaskProto pb s.node requestArgs s.written
      let (ok, t) ← s.after (sendProtocol proto masterFd)
      if ok then some { t with heartBeat := .idle, sent := s.sent ++ [proto] }
      else some { t with heartBeat := .idle, discarded := s.discarded ++ s.written }

def socketStep (s : State) : Option State :=
  match s.socket with
  | .idle => none
  | .tasksSize proto =>
      let newTasks := tasksUnder pb keyValuePairsTask proto
      if 0 < s.env.tasksSize ∨ newTasks = [] then some { s with socket := .idle }
      else some { s with socket := .updateTasks newTasks }
  | .updateTasks newTasks =>
      some
        { s.setEnv (s.env.updateTasks newTasks) with
          socket := .idle
          removed := s.removed ++ s.env.completedTasks }

/-- The next call of a computing thread. `ComputingUDF` writes into the task in
the table; what it writes into one that another thread has completed in the
meantime is left out. -/
def computingStep (thread : Nat) (now : Int) (result : FdcsTask → FdcsTask) (s : State) : State :=
  let goTo := fun (env : Enviroment) call =>
    { s.setEnv env with computing := Function.update s.computing thread call }
  match s.computing thread with
  | .tasksSize => if s.env.tasksSize = 0 then s else goTo s.env .getIdleTask
  | .getIdleTask =>
      match s.env.getIdleTask now with
      | (some task, env) => goTo env (.computingUDF task.taskId)
      | (none, env) => goTo env .tasksSize
  | .computingUDF taskId =>
      match s.env.findTask taskId with
      | some task =>
          goTo (s.env.modifyTask taskId result) (.taskCompleted (result task).taskId)
      | none => goTo s.env (.taskCompleted taskId)
  | .taskCompleted taskId => goTo (s.env.taskCompleted taskId) .tasksSize

def step (s : State) : Action → Option State
  | .heartBeat around ownerMaster => heartBeatStep pb around ownerMaster s
  | .receive around proto =>
      match s.socket, proto.protocolType with
      | .idle, .workerRequestTask => some { s with socket := .tasksSize proto }
      | .idle, .workerAskTracker => (s.after (processAskTracker pb around proto)).map Prod.snd
      | .idle, _ => some s
      | _, _ => none
  | .socket => socketStep pb s
  | .computing thread now result => some (computingStep thread now result s)
  | .socketClose around socketFd guestAddr =>
      (s.after (socketClose around socketFd guestAddr)).map Prod.snd

def initial (settings : Settings) (workerSockaddr : Str) : State where
  node :=
    { fdcsEnv := { settings := settings }, isMaster := false, workerSockaddr := workerSockaddr }

end Threads

section Results

def reported (sent : List TrackerProtocol) : List FdcsTask :=
  sent.flatMap (tasksUnder pb keyValuePairsTaskComplete)

/-- The results written into the message of the running call of `RequestTask`. -/
def underway (s : State) : List FdcsTask :=
  match s.heartBeat with
  | .idle => []
  | .findOwnerMaster => []
  | _ => s.written

/-- Every result that left the completed list was written into a message for
which `SendProtocol` returned true or is about to be called, and none was in a
message for which it returned false. -/
def Kept (s : State) : Prop :=
  s.removed.Subperm (reported pb s.sent ++ underway s) ∧ s.discarded = []

instance (s : State) : Decidable (Kept pb s) := inferInstanceAs (Decidable (_ ∧ _))

/-- The results in the completed list that the running call of `RequestTask` has
not written yet, or all of them before and after one. -/
def unwritten (s : State) : List FdcsTask :=
  match s.heartBeat with
  | .completedTasksSize _ i => s.env.completedTasks.drop i
  | .completedTasks _ i => s.env.completedTasks.drop i
  | .clearCompletedTasks _ => []
  | _ => s.env.completedTasks

/-- `RequestTask` will clear the list and not read what is added to it now. -/
def PastEnd (s : State) : Prop :=
  match s.heartBeat with
  | .completedTasksSize _ i => s.env.completedTasks.length < i
  | .completedTasks _ i => s.env.completedTasks.length < i
  | .clearCompletedTasks _ => True
  | _ => False

instance (s : State) : Decidable (PastEnd s) := by
  unfold PastEnd
  split <;> infer_instance

/-- A message with results goes to a descriptor that has buffers. -/
def SendsResults (s : State) : Prop :=
  match s.heartBeat with
  | .sendProtocol masterFd => masterFd ∈ s.node.sendBuffers ∨ s.written = []
  | _ => True

instance (s : State) : Decidable (SendsResults s) := by
  unfold SendsResults
  split <;> infer_instance

/-- The list new tasks clear holds nothing unwritten. -/
def ReplacesWritten (s : State) : Prop :=
  match s.socket with
  | .updateTasks _ => unwritten s = []
  | _ => True

instance (s : State) : Decidable (ReplacesWritten s) := by
  unfold ReplacesWritten
  split <;> infer_instance

/-- No task is completed behind the last look at the list before its clearing. -/
def CompletesInTime (s : State) (thread : Nat) : Prop :=
  match s.computing thread with
  | .taskCompleted taskId => PastEnd s → s.env.tasks.find? taskId = none
  | _ => True

instance (s : State) (thread : Nat) : Decidable (CompletesInTime s thread) := by
  unfold CompletesInTime
  split <;> infer_instance

def KeepsResults (s : State) : Action → Prop
  | .heartBeat _ _ => SendsResults s
  | .socket => ReplacesWritten s
  | .computing thread _ _ => CompletesInTime s thread
  | _ => True

instance (s : State) : ∀ a, Decidable (KeepsResults s a)
  | .heartBeat _ _ => inferInstanceAs (Decidable (SendsResults s))
  | .socket => inferInstanceAs (Decidable (ReplacesWritten s))
  | .computing thread _ _ => inferInstanceAs (Decidable (CompletesInTime s thread))
  | .receive _ _ => isTrue trivial
  | .socketClose _ _ _ => isTrue trivial

/-- What was reported, is being reported and is still to be written is what has
left the completed list and what is in it. -/
structure Accounted (s : State) : Prop where
  account : reported pb s.sent ++ underway s ++ unwritten s = s.removed ++ s.env.completedTasks
  discarded : s.discarded = []

end Results

section HandlerRules

variable {α β : Type} {around : Surroundings}

/-- Whether it returns or not, the handler leaves the completed list as it is. -/
def LeavesResults (handler : Handler α) : Prop :=
  ∀ s : Handling, Ensures handler s
    (fun _ t => t.node.fdcsEnv.completedTasks = s.node.fdcsEnv.completedTasks) (fun _ => True)

theorem LeavesResults.bind {x : Handler α} {f : α → Handler β} (hx : LeavesResults x)
    (hf : ∀ a, LeavesResults (f a)) : LeavesResults (x >>= f) := by
  intro s
  rw [ensures_bind]
  refine (hx s).imp fun a t ht => ?_
  exact (hf a t).imp fun _ u hu => hu.trans ht

theorem leavesResults_pure (a : α) : LeavesResults (pure a) := fun _ => rfl

theorem leavesResults_get : LeavesResults (get : Handler Handling) := fun _ => rfl

theorem leavesResults_throw (fault : Fault) : LeavesResults (throw fault : Handler α) :=
  fun _ => trivial

theorem leavesResults_modifyNode {f : Node → Node}
    (hf : ∀ node, (f node).fdcsEnv.completedTasks = node.fdcsEnv.completedTasks) :
    LeavesResults (modifyNode f) := fun s => hf s.node

theorem leavesResults_emit (effect : Effect) : LeavesResults (emit effect) := fun _ => rfl

theorem leavesResults_check (condition : Bool) : LeavesResults (check condition) := by
  cases condition with
  | true => exact leavesResults_pure _
  | false => exact leavesResults_throw _

theorem leavesResults_connectMaster (address : Str) :
    LeavesResults (connectMaster around address) := fun _ =>
  (ensures_connectMaster (Or.inr trivial)).imp fun _ _ h =>
    congrArg Enviroment.completedTasks h.1.fdcsEnv

theorem leavesResults_findNextMaster : LeavesResults (findNextMaster around) := fun _ =>
  (ensures_findNextMaster trivial trivial).imp fun _ _ h =>
    congrArg Enviroment.completedTasks h.fdcsEnv

theorem leavesResults_sendProtocol (proto : TrackerProtocol) (fd : Int) :
    LeavesResults (sendProtocol proto fd) := fun _ => ensures_sendProtocol fun _ _ => rfl

theorem leavesResults_masterSocketFd (address : Str) : LeavesResults (masterSocketFd address) := by
  refine leavesResults_get.bind fun h => ?_
  split
  · exact leavesResults_pure _
  · exact leavesResults_throw _

theorem leavesResults_findMasterLoop (masterSockaddr : List Str) :
    LeavesResults (findMasterLoop around masterSockaddr) := by
  induction masterSockaddr with
  | nil => exact leavesResults_pure _
  | cons masterAddr rest ih =>
      refine (leavesResults_connectMaster masterAddr).bind fun connected => ?_
      split_ifs
      · exact leavesResults_masterSocketFd masterAddr
      · exact ih

theorem leavesResults_askTracker : LeavesResults (askTracker around) := by
  have hfind : LeavesResults (findMaster around) :=
    leavesResults_get.bind fun _ => (leavesResults_check _).bind fun _ =>
      leavesResults_findMasterLoop _
  refine hfind.bind fun masterFd => ?_
  split_ifs
  · exact leavesResults_pure _
  · exact leavesResults_get.bind fun _ => leavesResults_sendProtocol _ _

theorem leavesResults_findOwnerMaster (ownerMaster : Option Str) :
    LeavesResults (findOwnerMaster around ownerMaster) := by
  cases ownerMaster with
  | none => exact leavesResults_pure _
  | some owner =>
      refine (leavesResults_connectMaster owner).bind fun connected => ?_
      split_ifs
      · exact leavesResults_masterSocketFd owner
      · refine leavesResults_get.bind fun h => ?_
        refine (leavesResults_connectMaster _).bind fun connected => ?_
        split_ifs
        · exact leavesResults_masterSocketFd _
        · exact leavesResults_pure _

theorem leavesResults_processAskTracker (proto : TrackerProtocol) :
    LeavesResults (processAskTracker pb around proto) := by
  unfold processAskTracker modifyEnv
  refine LeavesResults.bind (leavesResults_modifyNode fun _ => rfl) fun _ => ?_
  refine LeavesResults.bind (leavesResults_modifyNode fun _ => rfl) fun _ => ?_
  refine (leavesResults_connectMaster _).bind fun _ => ?_
  exact (leavesResults_emit _).bind fun _ => leavesResults_pure _

theorem leavesResults_masterGroupChanged : LeavesResults (masterGroupChanged around) := by
  refine leavesResults_get.bind fun h => ?_
  dsimp only
  split_ifs
  · exact leavesResults_pure _
  · refine leavesResults_findNextMaster.bind fun fd => ?_
    split_ifs
    · exact leavesResults_pure _
    · exact leavesResults_get.bind fun _ => leavesResults_sendProtocol _ _

theorem leavesResults_socketClose (socketFd : Int) (guestAddr : Str) :
    LeavesResults (socketClose around socketFd guestAddr) := by
  have hremove : LeavesResults
      (removeSocketResource socketFd >>= fun _ => (return true : Handler Bool)) :=
    LeavesResults.bind (leavesResults_modifyNode fun _ => rfl) fun _ => leavesResults_pure _
  refine leavesResults_get.bind fun h => ?_
  dsimp only
  split_ifs
  · refine LeavesResults.bind (leavesResults_modifyNode fun _ => rfl) fun _ => ?_
    refine LeavesResults.bind (leavesResults_modifyNode fun _ => rfl) fun _ => hremove
  · refine LeavesResults.bind (leavesResults_modifyNode fun _ => rfl) fun _ => ?_
    exact leavesResults_masterGroupChanged.bind fun _ => hremove
  · exact hremove

end HandlerRules

section Accounting

variable {pb}
variable {s t : State} {around : Surroundings}

theorem reported_append (sent : List TrackerProtocol) (proto : TrackerProtocol) :
    reported pb (sent ++ [proto]) =
      reported pb sent ++ tasksUnder pb keyValuePairsTaskComplete proto := by
  simp [reported]

theorem eq_of_after {α : Type} {handler : Handler α} {a : α} (hleaves : LeavesResults handler)
    (h : s.after handler = some (a, t)) :
    ∃ node, t = { s with node := node } ∧
      node.fdcsEnv.completedTasks = s.env.completedTasks := by
  have hensures := hleaves { node := s.node }
  unfold State.after at h
  split at h
  · cases h
  · rename_i a' u hrun
    obtain ⟨rfl, rfl⟩ : a' = a ∧ { s with node := u.node } = t := by simpa using h
    exact ⟨u.node, rfl, hensures.of_run_eq_ok hrun⟩

theorem after_sendProtocol (proto : TrackerProtocol) (fd : Int) :
    s.after (sendProtocol proto fd) = some (decide (fd ∈ s.node.sendBuffers), s) := by
  have hsend : Ensures (sendProtocol proto fd) { node := s.node }
      (fun ok t => ok = decide (fd ∈ s.node.sendBuffers) ∧ t.node = s.node)
      (fun _ => False) := by
    simp only [sendProtocol, ensures_bind, ensures_get, ensures_ite, emit, ensures_modify,
      ensures_pure]
    exact ⟨fun hfd => ⟨(decide_eq_true hfd).symm, trivial⟩,
      fun hfd => ⟨(decide_eq_false hfd).symm, trivial⟩⟩
  obtain ⟨⟨ok, t⟩, hrun, rfl, hnode⟩ := hsend.returns
  dsimp only at hnode
  simp only [State.after, hrun, hnode]

theorem Accounted.withNode (hs : Accounted pb s) {node : Node}
    (h : node.fdcsEnv.completedTasks = s.env.completedTasks) :
    Accounted pb { s with node := node } where
  account := by
    have hunwritten : unwritten { s with node := node } = unwritten s := by
      simp only [unwritten, State.env, h]
    have hsame : State.env { s with node := node } = node.fdcsEnv := rfl
    rw [hunwritten, hsame, h]
    exact hs.account
  discarded := hs.discarded

theorem accounted_idle (hs : Accounted pb s) (hcall : s.heartBeat = .idle)
    {ownerMaster : Option Str} (h : heartBeatStep pb around ownerMaster s = some t) :
    Accounted pb t := by
  have haccount := hs.account
  simp only [underway, unwritten, hcall] at haccount
  simp only [heartBeatStep, hcall] at h
  split_ifs at h
  · cases h
    exact hs
  · cases h
    exact ⟨haccount, hs.discarded⟩
  · obtain ⟨⟨a, u⟩, hafter, rfl⟩ := Option.map_eq_some_iff.mp h
    obtain ⟨node, rfl, hnode⟩ := eq_of_after leavesResults_askTracker hafter
    exact hs.withNode hnode

theorem accounted_findOwnerMaster (hs : Accounted pb s) (hcall : s.heartBeat = .findOwnerMaster)
    {ownerMaster : Option Str} (h : heartBeatStep pb around ownerMaster s = some t) :
    Accounted pb t := by
  have haccount := hs.account
  simp only [underway, unwritten, hcall] at haccount
  simp only [heartBeatStep, hcall] at h
  obtain ⟨⟨masterFd, u⟩, hafter, rfl⟩ := Option.map_eq_some_iff.mp h
  obtain ⟨node, rfl, hnode⟩ := eq_of_after (leavesResults_findOwnerMaster ownerMaster) hafter
  rw [← hnode] at haccount
  dsimp only
  split_ifs
  · exact ⟨haccount, hs.discarded⟩
  · exact ⟨haccount, hs.discarded⟩

/-- The loop reads the list at `i` and goes on behind it; its last look finds
everything written. -/
theorem accounted_copying (hs : Accounted pb s) {masterFd : Int} {i : Nat}
    (hcall : s.heartBeat = .completedTasksSize masterFd i ∨
      s.heartBeat = .completedTasks masterFd i)
    {ownerMaster : Option Str} (h : heartBeatStep pb around ownerMaster s = some t) :
    Accounted pb t := by
  have haccount := hs.account
  rcases hcall with hcall | hcall
  · simp only [underway, unwritten, hcall] at haccount
    simp only [heartBeatStep, hcall] at h
    split_ifs at h with hlt
    · cases h
      exact ⟨haccount, hs.discarded⟩
    · cases h
      rw [List.drop_eq_nil_of_le (not_lt.mp hlt)] at haccount
      exact ⟨haccount, hs.discarded⟩
  · simp only [underway, unwritten, hcall] at haccount
    simp only [heartBeatStep, hcall] at h
    obtain ⟨task, htask, rfl⟩ := Option.map_eq_some_iff.mp h
    obtain ⟨hlt, rfl⟩ := List.getElem?_eq_some_iff.mp htask
    rw [List.drop_eq_getElem_cons hlt, List.append_cons,
      List.append_assoc (reported pb s.sent)] at haccount
    exact ⟨haccount, hs.discarded⟩

theorem accounted_clearCompletedTasks (hs : Accounted pb s) {masterFd : Int}
    (hcall : s.heartBeat = .clearCompletedTasks masterFd) {ownerMaster : Option Str}
    (h : heartBeatStep pb around ownerMaster s = some t) : Accounted pb t := by
  have haccount := hs.account
  simp only [underway, unwritten, hcall, List.append_nil] at haccount
  simp only [heartBeatStep, hcall] at h
  cases h
  refine ⟨?_, hs.discarded⟩
  calc reported pb s.sent ++ s.written ++ []
      = s.removed ++ s.env.completedTasks := by rw [List.append_nil, haccount]
    _ = s.removed ++ s.env.completedTasks ++ [] := (List.append_nil _).symm

theorem accounted_sendProtocol (hs : Accounted pb s) {masterFd : Int}
    (hcall : s.heartBeat = .sendProtocol masterFd)
    (hsends : masterFd ∈ s.node.sendBuffers ∨ s.written = []) {ownerMaster : Option Str}
    (h : heartBeatStep pb around ownerMaster s = some t) : Accounted pb t := by
  have haccount := hs.account
  simp only [underway, unwritten, hcall] at haccount
  simp only [heartBeatStep, hcall, after_sendProtocol] at h
  obtain ⟨requestArgs, _, hsent⟩ := Option.bind_eq_some_iff.mp h
  rcases em (masterFd ∈ s.node.sendBuffers) with hfd | hfd
  · simp only [hfd] at hsent
    cases hsent
    refine ⟨?_, hs.discarded⟩
    change reported pb (s.sent ++ [requestTaskProto pb s.node requestArgs s.written]) ++ [] ++
      s.env.completedTasks = s.removed ++ s.env.completedTasks
    have hreports : tasksUnder pb keyValuePairsTaskComplete
        (requestTaskProto pb s.node requestArgs s.written) = s.written :=
      tasksUnder_writeTasks rfl
    rw [reported_append, hreports, List.append_nil, haccount]
  · have hwritten : s.written = [] := hsends.resolve_left hfd
    simp only [hfd, hwritten, List.append_nil] at hsent
    rw [hwritten, List.append_nil] at haccount
    cases hsent
    refine ⟨?_, hs.discarded⟩
    change reported pb s.sent ++ [] ++ s.env.completedTasks = s.removed ++ s.env.completedTasks
    rw [List.append_nil, haccount]

theorem accounted_heartBeatStep (hs : Accounted pb s) (hsends : SendsResults s)
    {ownerMaster : Option Str} (h : heartBeatStep pb around ownerMaster s = some t) :
    Accounted pb t := by
  unfold SendsResults at hsends
  cases hcall : s.heartBeat with
  | idle => exact accounted_idle hs hcall h
  | findOwnerMaster => exact accounted_findOwnerMaster hs hcall h
  | completedTasksSize masterFd i => exact accounted_copying hs (Or.inl hcall) h
  | completedTasks masterFd i => exact accounted_copying hs (Or.inr hcall) h
  | clearCompletedTasks masterFd => exact accounted_clearCompletedTasks hs hcall h
  | sendProtocol masterFd =>
      rw [hcall] at hsends
      exact accounted_sendProtocol hs hcall hsends h

theorem unwritten_append {s t : State} (hcall : t.heartBeat = s.heartBeat) (hend : ¬PastEnd s)
    {task : FdcsTask} (htasks : t.env.completedTasks = s.env.completedTasks ++ [task]) :
    unwritten t = unwritten s ++ [task] := by
  unfold PastEnd at hend
  unfold unwritten
  rw [hcall, htasks]
  cases hbeat : s.heartBeat with
  | idle => rfl
  | findOwnerMaster => rfl
  | completedTasksSize masterFd i =>
      rw [hbeat] at hend
      exact List.drop_append_of_le_length (not_lt.mp hend)
  | completedTasks masterFd i =>
      rw [hbeat] at hend
      exact List.drop_append_of_le_length (not_lt.mp hend)
  | clearCompletedTasks masterFd =>
      rw [hbeat] at hend
      exact absurd trivial hend
  | sendProtocol masterFd => rfl

theorem unwritten_of_empty {s : State} (h : s.env.completedTasks = []) : unwritten s = [] := by
  unfold unwritten
  rw [h]
  split <;> simp

theorem accounted_socketStep (hs : Accounted pb s) (hreplaces : ReplacesWritten s)
    (h : socketStep pb s = some t) : Accounted pb t := by
  unfold ReplacesWritten at hreplaces
  unfold socketStep at h
  cases hcall : s.socket with
  | idle =>
      rw [hcall] at h
      cases h
  | tasksSize proto =>
      simp only [hcall] at h
      split_ifs at h
      · cases h
        exact ⟨hs.account, hs.discarded⟩
      · cases h
        exact ⟨hs.account, hs.discarded⟩
  | updateTasks newTasks =>
      rw [hcall] at hreplaces
      have haccount := hs.account
      rw [hreplaces, List.append_nil] at haccount
      simp only [hcall] at h
      cases h
      refine ⟨?_, hs.discarded⟩
      rw [unwritten_of_empty rfl, List.append_nil]
      exact haccount.trans (List.append_nil _).symm

/-- Of the calls of a computing thread only `TaskCompleted` changes the completed
list, by the task it finds. -/
theorem computingStep_cases (thread : Nat) (now : Int) (result : FdcsTask → FdcsTask)
    (s : State) :
    ∃ env computing,
      computingStep thread now result s = { s.setEnv env with computing := computing } ∧
        (env.completedTasks = s.env.completedTasks ∨
          ∃ taskId task, s.computing thread = .taskCompleted taskId ∧
            s.env.tasks.find? taskId = some task ∧
            env.completedTasks = s.env.completedTasks ++ [task]) := by
  unfold computingStep
  cases hcall : s.computing thread with
  | tasksSize =>
      dsimp only
      split_ifs
      · exact ⟨s.env, s.computing, rfl, Or.inl rfl⟩
      · exact ⟨s.env, _, rfl, Or.inl rfl⟩
  | getIdleTask =>
      have hkept : (s.env.getIdleTask now).2.completedTasks = s.env.completedTasks := rfl
      rcases hidle : s.env.getIdleTask now with ⟨_ | task, env⟩
      · rw [hidle] at hkept
        exact ⟨env, _, rfl, Or.inl hkept⟩
      · rw [hidle] at hkept
        exact ⟨env, _, rfl, Or.inl hkept⟩
  | computingUDF taskId =>
      cases hfind : s.env.findTask taskId with
      | none =>
          refine ⟨s.env, Function.update s.computing thread (.taskCompleted taskId), ?_, Or.inl rfl⟩
          simp only [hfind]
      | some task =>
          refine ⟨s.env.modifyTask taskId result,
            Function.update s.computing thread (.taskCompleted (result task).taskId), ?_,
            Or.inl rfl⟩
          simp only [hfind]
  | taskCompleted taskId =>
      refine ⟨s.env.taskCompleted taskId, _, rfl, ?_⟩
      cases hfind : s.env.tasks.find? taskId with
      | none => exact Or.inl (by rw [Enviroment.taskCompleted_of_none hfind])
      | some task =>
          refine Or.inr ⟨taskId, task, rfl, hfind, ?_⟩
          rw [Enviroment.taskCompleted_of_some hfind]

theorem accounted_computingStep (hs : Accounted pb s) {thread : Nat}
    (hintime : CompletesInTime s thread) (now : Int) (result : FdcsTask → FdcsTask) :
    Accounted pb (computingStep thread now result s) := by
  obtain ⟨env, computing, heq, hkept | ⟨taskId, task, hcall, hfind, hmoved⟩⟩ :=
    computingStep_cases thread now result s
  · rw [heq]
    have hnode : Accounted pb (s.setEnv env) := hs.withNode hkept
    exact ⟨hnode.account, hnode.discarded⟩
  · have hend : ¬PastEnd s := by
      intro hend
      unfold CompletesInTime at hintime
      rw [hcall] at hintime
      rw [hintime hend] at hfind
      cases hfind
    rw [heq]
    refine ⟨?_, hs.discarded⟩
    rw [unwritten_append (s := s) (t := { s.setEnv env with computing := computing }) rfl hend
      hmoved]
    change reported pb s.sent ++ underway s ++ (unwritten s ++ [task]) =
      s.removed ++ env.completedTasks
    rw [hmoved, ← List.append_assoc, hs.account, List.append_assoc]

theorem accounted_step (hs : Accounted pb s) {a : Action} (hkeeps : KeepsResults s a)
    (h : step pb s a = some t) : Accounted pb t := by
  cases a with
  | heartBeat around ownerMaster => exact accounted_heartBeatStep hs hkeeps h
  | receive around proto =>
      simp only [step] at h
      split at h
      · cases h
        exact ⟨hs.account, hs.discarded⟩
      · obtain ⟨⟨a, u⟩, hafter, rfl⟩ := Option.map_eq_some_iff.mp h
        obtain ⟨node, rfl, hnode⟩ := eq_of_after (leavesResults_processAskTracker pb proto) hafter
        exact hs.withNode hnode
      · cases h
        exact hs
      · cases h
  | socket => exact accounted_socketStep hs hkeeps h
  | computing thread now result =>
      cases h
      exact accounted_computingStep hs hkeeps now result
  | socketClose around socketFd guestAddr =>
      obtain ⟨⟨a, u⟩, hafter, rfl⟩ := Option.map_eq_some_iff.mp h
      obtain ⟨node, rfl, hnode⟩ := eq_of_after (leavesResults_socketClose socketFd guestAddr) hafter
      exact hs.withNode hnode

theorem accounted_initial (settings : Settings) (workerSockaddr : Str) :
    Accounted pb (initial settings workerSockaddr) := ⟨rfl, rfl⟩

/-- What is unwritten is an end of the completed list, so what has left the list
is a beginning of what was written. -/
theorem Accounted.kept (hs : Accounted pb s) : Kept pb s := by
  refine ⟨List.Sublist.subperm (List.IsPrefix.sublist ?_), hs.discarded⟩
  have hle : (unwritten s).length ≤ s.env.completedTasks.length := by
    unfold unwritten
    split <;> simp
  have hlength := congrArg List.length hs.account
  refine List.prefix_of_prefix_length_le ⟨_, rfl⟩ ⟨_, hs.account⟩ ?_
  simp only [List.length_append] at hlength ⊢
  omega

section Examples

def aloneSettings : Settings where
  trackerGroup := "10.0.0.1:1".toList
  trackerServer := []

def connected : Surroundings where
  nowTime := 0
  connect := fun _ _ => some 5
  loopFuel := 1

/-- A worker finds the primary, gets a task, computes it and reports the result;
the given steps are taken when the result has left the completed list and the
message is about to be sent. -/
def oneTaskRun (beforeSend : List Action) : List Action :=
  let beat : Action := .heartBeat connected (some "10.0.0.1:1".toList)
  [beat, .receive connected
      { protocolType := .workerAskTracker, responseResult := "10.0.0.1:1".toList }] ++
    List.replicate 5 beat ++
    [.receive connected
      { protocolType := .workerRequestTask
        keyValuesPairs := [writeTasks plainProtobuf keyValuePairsTask [{ taskId := ['t'] }]] },
      .socket, .socket] ++
    List.replicate 4 (.computing 0 1 id) ++ List.replicate 6 beat ++ beforeSend ++ [beat]

end Examples

/-- No result is discarded unreported in a run in which every message with
results goes out, no result is completed behind the last look at the list, and
new tasks clear only results that are written. -/
theorem results_kept_along {settings : Settings} {workerSockaddr : Str} {as : List Action}
    (hkeeps : Along (step pb) KeepsResults (initial settings workerSockaddr) as)
    (hrun : run (step pb) (initial settings workerSockaddr) as = some s) : Kept pb s := by
  have hinit : Accounted pb (initial settings workerSockaddr) := accounted_initial _ _
  have hs : Accounted pb s :=
    invariant_along (fun _ _ _ hs hkeeps h => accounted_step hs hkeeps h) hinit hkeeps hrun
  exact hs.kept

theorem oneTaskRun_reports :
    ∃ s, run (step plainProtobuf) (initial aloneSettings ['w']) (oneTaskRun []) = some s ∧
      (reported plainProtobuf s.sent).map FdcsTask.taskId = [['t']] ∧ Kept plainProtobuf s := by
  have hreported : (run (step plainProtobuf) (initial aloneSettings ['w']) (oneTaskRun [])).map
      (fun s => (reported plainProtobuf s.sent).map FdcsTask.taskId) = some [['t']] := by
    decide +kernel
  obtain ⟨s, hrun, hids⟩ := Option.map_eq_some_iff.mp hreported
  exact ⟨s, hrun, hids, results_kept_along (by decide +kernel) hrun⟩

/-- When the connection closes between the clearing and the sending, the result
is gone. -/
theorem not_every_worker_keeps_results :
    ¬∀ (pb : Protobuf) (settings : Settings) (workerSockaddr : Str) (as : List Action) (s : State),
      run (step pb) (initial settings workerSockaddr) as = some s → Kept pb s := by
  intro hall
  have hlost : (run (step plainProtobuf) (initial aloneSettings ['w'])
      (oneTaskRun [.socketClose connected 5 "10.0.0.1:1".toList])).map
      (fun s => (s.discarded.map FdcsTask.taskId, s.env.completedTasks)) = some ([['t']], []) := by
    decide +kernel
  obtain ⟨s, hrun, hs⟩ := Option.map_eq_some_iff.mp hlost
  have hnone := (hall _ _ _ _ s hrun).2
  rw [hnone] at hs
  cases hs

end Accounting

end FastDCS.Worker
