import FastDCS.MachineIntegers
import FastDCS.Enviroment

/-!
The clock of a node and its leases in 32-bit arithmetic: the time of day is cut
down to an `int32`, and the sums and the difference have no result where they
overflow.
-/

namespace FastDCS.ClockRange

open FastDCS.Strings
open FastDCS.Messages
open FastDCS.MachineIntegers

/-- `NowTime` at so many seconds of `gettimeofday`. -/
def nowTime (tvSec : Int) : Int := narrow 31 tvSec

variable (env : Enviroment) (tvSec : Int)

def calcFdcsTimeDiffer (fdcsTime : Int) : Option Enviroment :=
  (checked 31 (fdcsTime - nowTime tvSec)).map fun differ => { env with fdcsTimeDiffer := differ }

def fdcsTime : Option Int := checked 31 (nowTime tvSec + env.fdcsTimeDiffer)

/-- The lease that `GetIdleTask` sets. -/
def leased (task : FdcsTask) : Option FdcsTask :=
  (fdcsTime env tvSec).bind fun time =>
    (checked 31 (time + env.settings.leaseTimeout)).map task.setLeaseTime

/-- The comparison of `GetIdleTask`. -/
def isIdle (task : FdcsTask) : Option Bool :=
  (fdcsTime env tvSec).map fun time => decide (task.lease < time)

/-- What `AddProtoFdcsTime` writes, unless a `CHECK` fails. -/
def fdcsTimeKey : Option Str := (fdcsTime env tvSec).bind int32ToKey

/-- The clock is set by a record and read at a later moment: nothing overflows, a
lease set then has not expired then, and the time can be written. -/
def InRange (env : Enviroment) (syncSec tvSec uninitialised : Int) (record : Str) : Prop :=
  ∃ synced, calcFdcsTimeDiffer env syncSec (keyToInt32 uninitialised record) = some synced ∧
    (∃ time, fdcsTime synced tvSec = some time) ∧
    (∀ task, ∃ task', leased synced tvSec task = some task' ∧
      isIdle synced tvSec task' = some false) ∧
    ∃ key, fdcsTimeKey synced tvSec = some key

variable {env tvSec} {synced : Enviroment} {time : Int}

end FastDCS.ClockRange
