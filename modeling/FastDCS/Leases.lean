import Mathlib.Logic.Function.Basic
import FastDCS.MasterTasks
import FastDCS.Runs

/-!
The leases of a primary and its secondaries, which share one clock: how the
tasks handed to workers and those given away in duplicates are spaced.
-/

namespace FastDCS.Leases

open FastDCS.Strings
open FastDCS.Messages
open FastDCS.MasterTasks
open FastDCS.Runs

section Tables

variable {env : Enviroment} {now : Int} {quota : Nat}

end Tables

/-- A task handed to a worker, or given to a secondary in a duplicate. `copy`
counts the duplicates with the task that the master has saved before. -/
structure Handout where
  master : Str
  taskId : Str
  time : Int
  receiver : Option Str
  copy : Nat
deriving DecidableEq

/-- The masters, the messages between primary and secondaries, and the record
of what was handed out and saved. -/
structure State where
  clock : Int
  envs : Str → Enviroment
  requests : List Str := []
  duplicates : List (Str × TrackerProtocol) := []
  handouts : List Handout := []
  saved : List (Str × Str) := []

/-- A master answers a worker or handles its reports, a secondary without idle
tasks asks for a duplicate, the primary sends one, or a secondary saves it. -/
inductive Action where
  | workerRequest (master : Str) (nowTime uninitialised : Int) (reports : List FdcsTask)
      (requestArgs : Str) (forwardingSockFd : Int)
  | taskCompleted (master : Str) (nowTime : Int) (reports : List FdcsTask)
  | requestDuplicate (secondary : Str) (nowTime : Int)
  | sendDuplicate (index : Nat) (nowTime : Int)
  | saveDuplicate (index : Nat)

def State.handOut (s : State) (master : Str) (time : Int) (receiver : Option Str)
    (env : Enviroment) (taskIds : List Str) : State :=
  { s with
    clock := time
    envs := Function.update s.envs master env
    handouts := s.handouts ++ taskIds.map fun taskId =>
      ⟨master, taskId, time, receiver, s.saved.count (master, taskId)⟩ }

variable (pb : Protobuf) (primary : Str)

def taskIds (proto : TrackerProtocol) : List Str :=
  (tasksUnder pb keyValuePairsTask proto).map FdcsTask.taskId

def step (s : State) : Action → Option State
  | .workerRequest master nowTime uninitialised reports requestArgs forwardingSockFd =>
      let time := (s.envs master).fdcsTime nowTime
      if time < s.clock then none
      else
        let result := getIdleTask pb (decide (master = primary)) uninitialised (s.envs master)
          nowTime
          { taskReport pb reports with
            requestArgs := requestArgs, forwardingSockFd := forwardingSockFd }
        some (s.handOut master time none result.2.2 (taskIds pb result.2.1))
  | .taskCompleted master nowTime reports =>
      let time := (s.envs master).fdcsTime nowTime
      if time < s.clock then none
      else
        let result := taskCompleted pb (s.envs master) nowTime (taskReport pb reports)
        some { s with clock := time, envs := Function.update s.envs master result.2 }
  | .requestDuplicate secondary nowTime =>
      let time := (s.envs secondary).fdcsTime nowTime
      if time < s.clock ∨ secondary = primary ∨ 0 < (s.envs secondary).idleTasksSize nowTime then
        none
      else some { s with clock := time, requests := s.requests ++ [secondary] }
  | .sendDuplicate index nowTime =>
      match s.requests[index]? with
      | none => none
      | some secondary =>
          let time := (s.envs primary).fdcsTime nowTime
          if time < s.clock then none
          else
            let result := sendTaskDuplicate pb (s.envs primary) nowTime
              { protocolType := .requestTaskDuplicate, requestSockAddr := secondary }
            let s := { s with requests := s.requests.eraseIdx index }
            match result.1 with
            | none => some (s.handOut primary time (some secondary) result.2 [])
            | some duplicate =>
                some
                  { s.handOut primary time (some secondary) result.2 (taskIds pb duplicate) with
                    duplicates := s.duplicates ++ [(secondary, duplicate)] }
  | .saveDuplicate index =>
      match s.duplicates[index]? with
      | none => none
      | some (secondary, duplicate) =>
          some
            { s with
              envs := Function.update s.envs secondary
                (saveTaskDuplicate pb (s.envs secondary) duplicate)
              duplicates := s.duplicates.eraseIdx index
              saved := s.saved ++ (taskIds pb duplicate).map (secondary, ·) }

/-- The primary has imported tasks, the secondaries start without any. -/
def initial (settings : Str → Settings) (differ : Str → Int) (tasks : List FdcsTask)
    (clock : Int) : State where
  clock := clock
  envs master :=
    Enviroment.updateTasks { settings := settings master, fdcsTimeDiffer := differ master }
      (if master = primary then tasks else [])

variable {pb primary} {settings : Str → Settings} {s s' : State}

section HandingOut

variable {master : Str} {now : Int} {quota : Nat} {receiver : Option Str}

end HandingOut

section Steps

end Steps

section Overlapping

end Overlapping

end FastDCS.Leases
