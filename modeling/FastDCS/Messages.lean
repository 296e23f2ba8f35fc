import Mathlib.Data.Char
import Mathlib.Data.List.Lex
import FastDCS.Strings
import FastDCS.Codecs
import FastDCS.OrderedMap

/-!
The messages of `tracker_protocol.proto` and the record functions of
`protofile.cc`. The serialization library is a parameter with the round trip
its users rely on.
-/

namespace FastDCS.Messages

open FastDCS.Strings
open FastDCS.Codecs

structure KeyValuePair where
  key : Str := []
  value : Str := []
deriving DecidableEq

structure KeyValuesPair where
  key : Str := []
  value : List Str := []
deriving DecidableEq

/-- A task. `leaseTime` is `none` when the field is not set. -/
structure FdcsTask where
  taskId : Str := []
  leaseTime : Option Int := none
  keyValuesPairs : List KeyValuesPair := []
deriving DecidableEq

def FdcsTask.lease (task : FdcsTask) : Int := task.leaseTime.getD 0

def FdcsTask.setLeaseTime (task : FdcsTask) (time : Int) : FdcsTask :=
  { task with leaseTime := some time }

def FdcsTask.clearLeaseTime (task : FdcsTask) : FdcsTask := { task with leaseTime := none }

@[simp] theorem FdcsTask.lease_setLeaseTime (task : FdcsTask) (time : Int) :
    (task.setLeaseTime time).lease = time := rfl

@[simp] theorem FdcsTask.taskId_setLeaseTime (task : FdcsTask) (time : Int) :
    (task.setLeaseTime time).taskId = task.taskId := rfl

@[simp] theorem FdcsTask.taskId_clearLeaseTime (task : FdcsTask) :
    task.clearLeaseTime.taskId = task.taskId := rfl

inductive ProtocolType where
  | unknownProtocol
  | election
  | coordinator
  | masterAskTracker
  | masterReportStatus
  | workerAskTracker
  | workerReportStatus
  | createJobId
  | commitJob
  | syncTaskDuplicate
  | requestTaskDuplicate
  | workerRequestTask
  | taskCompleted
  | askTaskStatus
  | masterJoinGroup
  | masterGroupChanged
deriving DecidableEq

/-- A message between nodes, with the defaults of its fields. The fields no
handler decides on (`id`, `time`, `tracker_type`, `tracker_status`) are left out. -/
structure TrackerProtocol where
  protocolType : ProtocolType := .unknownProtocol
  requestSockAddr : Str := []
  requestArgs : Str := []
  responseSockAddr : Str := []
  forwardingSockFd : Int := -1
  responseResult : Str := []
  keyValuesPairs : List KeyValuesPair := []
deriving DecidableEq

def responseResultSuccess : Str := "success".toList
def responseResultComplete : Str := "complete".toList

def keyValuePairsTask : Str := "FdcsTask".toList
def keyValuePairsTaskComplete : Str := "FdcsTaskComplete".toList
def keyValuePairsFdcsTime : Str := "FdcsTime".toList

/-- The serialization library as the record functions use it. Parsing undoes
serializing; about other byte strings nothing is known. -/
structure Protobuf where
  serializeTask : FdcsTask → Str
  parseTask : Str → FdcsTask
  parseTask_serializeTask : ∀ task, parseTask (serializeTask task) = task
  serializePair : KeyValuePair → Str
  parsePair : Str → KeyValuePair
  parsePair_serializePair : ∀ pair, parsePair (serializePair pair) = pair
  /-- A `TrackerStatus` with nothing but its `socket_addr` set. -/
  serializeStatus : Str → Str

variable (pb : Protobuf)

def readTasks (pairs : KeyValuesPair) : List FdcsTask := pairs.value.map pb.parseTask

/-- `ReadRecord` into a map, which keeps the first value of a key. -/
def readPairs (pairs : KeyValuesPair) (keyValues : OrderedMap Str Str) : OrderedMap Str Str :=
  pairs.value.foldl
    (fun m bytes => m.insert (pb.parsePair bytes).key (pb.parsePair bytes).value) keyValues

def writeTask (pairs : KeyValuesPair) (task : FdcsTask) : KeyValuesPair :=
  { pairs with value := pairs.value ++ [pb.serializeTask task] }

def writePair (pairs : KeyValuesPair) (pair : KeyValuePair) : KeyValuesPair :=
  { pairs with value := pairs.value ++ [pb.serializePair pair] }

/-- The tasks in the records under one key, in message order: the reading loop
of `SaveNewTask` and of `Master::TaskCompleted`. -/
def tasksUnder (key : Str) (proto : TrackerProtocol) : List FdcsTask :=
  (proto.keyValuesPairs.filter fun pairs => decide (pairs.key = key)).flatMap (readTasks pb)

def writeTasks (key : Str) (tasks : List FdcsTask) : KeyValuesPair :=
  tasks.foldl (writeTask pb) { key := key }

theorem foldl_writeTask (pairs : KeyValuesPair) (tasks : List FdcsTask) :
    tasks.foldl (writeTask pb) pairs =
      { pairs with value := pairs.value ++ tasks.map pb.serializeTask } := by
  induction tasks generalizing pairs with
  | nil => simp
  | cons task rest ih => simp [ih, writeTask]

theorem readTasks_writeTasks (key : Str) (tasks : List FdcsTask) :
    readTasks pb (writeTasks pb key tasks) = tasks := by
  simp [readTasks, writeTasks, foldl_writeTask, Function.comp_def, pb.parseTask_serializeTask]

def taskReport (tasks : List FdcsTask) : TrackerProtocol where
  protocolType := .workerRequestTask
  keyValuesPairs := [writeTasks pb keyValuePairsTaskComplete tasks]

theorem key_writeTasks (key : Str) (tasks : List FdcsTask) :
    (writeTasks pb key tasks).key = key := by
  rw [writeTasks, foldl_writeTask]

variable {pb} in
theorem tasksUnder_writeTasks {key : Str} {proto : TrackerProtocol} {tasks : List FdcsTask}
    (h : proto.keyValuesPairs = [writeTasks pb key tasks]) : tasksUnder pb key proto = tasks := by
  simp [tasksUnder, h, key_writeTasks, readTasks_writeTasks]

section Codecs

def lengthCodec : Codec Char Nat := .nat '|' '.' (by decide)

def stringCodec : Codec Char Str := .list lengthCodec .symbol

def keyValuePairCodec : Codec Char KeyValuePair :=
  (stringCodec.prod stringCodec).retract (fun p => (p.key, p.value)) (fun p => ⟨p.1, p.2⟩)
    fun _ => rfl

def keyValuesPairCodec : Codec Char KeyValuesPair :=
  (stringCodec.prod (.list lengthCodec stringCodec)).retract
    (fun p => (p.key, p.value)) (fun p => ⟨p.1, p.2⟩) fun _ => rfl

def taskCodec : Codec Char FdcsTask :=
  (stringCodec.prod
      ((Codec.option lengthCodec (.int lengthCodec)).prod
        (.list lengthCodec keyValuesPairCodec))).retract
    (fun t => (t.taskId, t.leaseTime, t.keyValuesPairs)) (fun p => ⟨p.1, p.2.1, p.2.2⟩)
    fun _ => rfl

def plainProtobuf : Protobuf where
  serializeTask := taskCodec.encode
  parseTask := taskCodec.read {}
  parseTask_serializeTask := taskCodec.read_encode {}
  serializePair := keyValuePairCodec.encode
  parsePair := keyValuePairCodec.read {}
  parsePair_serializePair := keyValuePairCodec.read_encode {}
  serializeStatus := stringCodec.encode

end Codecs

end FastDCS.Messages
