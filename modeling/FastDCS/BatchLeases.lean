import FastDCS.MasterTasks

/-!
The two loops that lease a batch of tasks, `Enviroment::LeaseTasks` and
`Master::GetIdleTask`, compared with the batch that was requested.
-/

namespace FastDCS.BatchLeases

open FastDCS.Strings
open FastDCS.Messages
open FastDCS.MasterTasks

section Batches

variable (env : Enviroment) (now n : Int)

/-- The first tasks in id order without a running lease: as many as requested,
or all of them. -/
def batch : List (Str × FdcsTask) :=
  (env.tasks.entries.filter fun entry => env.isIdle now entry.2).take
    (min (max n 0) (env.idleTasksSize now : Int)).toNat

variable {env now n}

end Batches

section Flags

variable (pb : Protobuf) (env : Enviroment) (now uninitialised : Int)

end Flags

section Comparing

variable (pb : Protobuf) (env : Enviroment) (now : Int)

variable {env now}

variable {isPrimary : Bool} {uninitialised : Int} {proto : TrackerProtocol}

end Comparing

section Counts

end Counts

end FastDCS.BatchLeases
