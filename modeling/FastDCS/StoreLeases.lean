import FastDCS.LeaseLogs
import FastDCS.MasterTasks

/-!
One task store under any sequence of calls: the three functions that lease its
tasks, each reading the clock as often as its loop does, and the log of what they
hand out.
-/

namespace FastDCS.StoreLeases

open FastDCS.Strings
open FastDCS.Messages
open FastDCS.Runs
open FastDCS.LeaseLogs

/-- A task given to a caller: the time its lease was compared with, and the time
its new lease counts from. -/
structure Handout where
  copy : FdcsTask
  checked : Int
  leased : Int

def Handout.event (handout : Handout) : Event Str :=
  .handedOut handout.copy.taskId handout.checked handout.leased

section Functions

/-- The state of a loop that reads `FdcsTime` at every task. -/
structure Loop where
  taskDuplicate : Int := 0
  clock : Int
  reads : Nat := 0
  handouts : List Handout := []

variable (env : Enviroment) (delays : Nat → Nat)

/-- Each reading of the clock is `delays` of its number later than the one
before. -/
def leaseTasksBody (s : Loop) (task : FdcsTask) : Loop × FdcsTask × Bool :=
  let checked := s.clock + delays s.reads
  if task.lease < checked then
    if s.taskDuplicate ≤ 0 then
      ({ s with taskDuplicate := s.taskDuplicate - 1, clock := checked, reads := s.reads + 1 },
        task, false)
    else
      let leased := checked + delays (s.reads + 1)
      ({ taskDuplicate := s.taskDuplicate - 1
         clock := leased
         reads := s.reads + 2
         handouts := s.handouts ++ [⟨task.clearLeaseTime, checked, leased⟩] },
        task.setLeaseTime (leased + env.settings.leaseTimeout), true)
  else ({ s with clock := checked, reads := s.reads + 1 }, task, true)

def leaseTasks (clock : Int) : Loop × Enviroment :=
  let result := env.tasks.walk (leaseTasksBody env delays)
    { taskDuplicate := env.settings.taskDuplicate, clock := clock }
  (result.1, { env with tasks := result.2 })

def getIdleTaskBody (s : Loop) (task : FdcsTask) : Loop × FdcsTask × Bool :=
  let checked := s.clock + delays s.reads
  if task.lease < checked then
    let leased := checked + delays (s.reads + 1)
    let task := task.setLeaseTime (leased + env.settings.leaseTimeout)
    ({ s with
        clock := leased
        reads := s.reads + 2
        handouts := s.handouts ++ [⟨task, checked, leased⟩] },
      task, false)
  else ({ s with clock := checked, reads := s.reads + 1 }, task, true)

def getIdleTask (clock : Int) : Loop × Enviroment :=
  let result := env.tasks.walk (getIdleTaskBody env delays) { clock := clock }
  (result.1, { env with tasks := result.2 })

/-- With a clock that stands still `LeaseTasks` is what a single reading gives. -/
theorem leaseTasks_of_still (now : Int) :
    ((leaseTasks env (fun _ => 0) (env.fdcsTime now)).1.handouts.map Handout.copy,
      (leaseTasks env (fun _ => 0) (env.fdcsTime now)).2) = env.leaseTasks now [] := by
  have hloop := OrderedMap.walkList_simulates (leaseTasksBody env fun _ => 0)
    (env.leaseTurn now)
    (fun s t => s.taskDuplicate = t.1 ∧ s.clock = env.fdcsTime now ∧
      s.handouts.map Handout.copy = t.2)
    (fun s t task hr => by
      obtain ⟨hleft, hclock, hcopies⟩ := hr
      simp only [leaseTasksBody, Enviroment.leaseTurn, hclock, Int.natCast_zero, Int.add_zero, Enviroment.isIdle_eq_true,
        hleft]
      split_ifs
      · exact ⟨⟨rfl, rfl, hcopies⟩, rfl⟩
      · exact ⟨⟨rfl, rfl, by simp [hcopies]⟩, rfl⟩
      · exact ⟨⟨rfl, rfl, hcopies⟩, rfl⟩)
    (s := { taskDuplicate := env.settings.taskDuplicate, clock := env.fdcsTime now })
    (t := (env.settings.taskDuplicate, [])) ⟨rfl, rfl, rfl⟩ env.tasks.entries
  have htasks : (leaseTasks env (fun _ => 0) (env.fdcsTime now)).2.tasks =
      (env.leaseTasks now []).2.tasks := OrderedMap.ext hloop.2
  refine Prod.ext hloop.1.2.2 ?_
  exact congrArg (fun m => { env with tasks := m }) htasks

/-- So is `GetIdleTask`. -/
theorem getIdleTask_of_still (now : Int) :
    ((getIdleTask env (fun _ => 0) (env.fdcsTime now)).1.handouts.getLast?.map Handout.copy,
      (getIdleTask env (fun _ => 0) (env.fdcsTime now)).2) = env.getIdleTask now := by
  have hloop := OrderedMap.walkList_simulates (getIdleTaskBody env fun _ => 0)
    (env.idleTurn now)
    (fun s found => s.clock = env.fdcsTime now ∧
      s.handouts.getLast?.map Handout.copy = found)
    (fun s t task hr => by
      obtain ⟨hclock, hcopy⟩ := hr
      simp only [getIdleTaskBody, Enviroment.idleTurn, hclock, Int.natCast_zero, Int.add_zero,
        Enviroment.isIdle_eq_true]
      split_ifs
      · exact ⟨⟨rfl, by simp; rfl⟩, rfl⟩
      · exact ⟨⟨rfl, hcopy⟩, rfl⟩)
    (s := { clock := env.fdcsTime now }) (t := none) ⟨rfl, rfl⟩ env.tasks.entries
  have htasks : (getIdleTask env (fun _ => 0) (env.fdcsTime now)).2.tasks =
      (env.getIdleTask now).2.tasks := OrderedMap.ext hloop.2
  refine Prod.ext hloop.1.2 ?_
  exact congrArg (fun m => { env with tasks := m }) htasks

variable {env delays}

theorem keyed_walk {σ : Type} {body : σ → FdcsTask → σ × FdcsTask × Bool}
    (hbody : ∀ s task, (body s task).2.1.taskId = task.taskId) (h : env.Keyed) (s : σ) :
    ({ env with tasks := (env.tasks.walk body s).2 } : Enviroment).Keyed := by
  intro taskId task hfind
  obtain ⟨old, hold, hid⟩ :=
    OrderedMap.mem_walkList hbody ((OrderedMap.find?_eq_some_iff _).mp hfind)
  exact hid.trans (h taskId old (env.tasks.find?_eq_some_iff.mpr hold))

theorem keyed_leaseTasks (h : env.Keyed) (clock : Int) :
    (leaseTasks env delays clock).2.Keyed := by
  refine keyed_walk (fun s task => ?_) h _
  simp only [leaseTasksBody]
  split_ifs <;> rfl

theorem keyed_getIdleTask (h : env.Keyed) (clock : Int) :
    (getIdleTask env delays clock).2.Keyed := by
  refine keyed_walk (fun s task => ?_) h _
  simp only [getIdleTaskBody]
  split_ifs <;> rfl

theorem keyed_masterGetIdleTask (pb : Protobuf) (h : env.Keyed) (isPrimary : Bool)
    (uninitialised now : Int) (proto : TrackerProtocol) :
    (MasterTasks.getIdleTask pb isPrimary uninitialised env now proto).2.2.Keyed := by
  obtain ⟨quota, hquota⟩ := MasterTasks.getIdleTask_env pb env now isPrimary uninitialised proto
  rw [hquota]
  exact MasterTasks.keyed_leaseFirst h

end Functions

section Stores

/-- A store with every task under its own id, as all its methods leave it. -/
structure Store where
  env : Enviroment
  keyed : env.Keyed

/-- A store with the last reading of the clock, the log of its calls and the
copies written into messages. -/
structure State extends Store where
  clock : Int
  log : List (Event Str) := []
  sent : List FdcsTask := []

/-- A call with what it reads: how much later each reading of the clock is than
the one before, and the message a master answers. -/
inductive Call where
  | addTask (task : FdcsTask)
  | leaseTasks (delays : Nat → Nat)
  | getIdleTask (delays : Nat → Nat)
  | masterGetIdleTask (delay : Nat) (isPrimary : Bool) (uninitialised : Int)
      (proto : TrackerProtocol)
  | findTask (taskId : Str)
  | taskCompleted (taskId : Str)
  | clearCompletedTasks

variable (pb : Protobuf)

/-- What `Master::GetIdleTask` hands out of its own store. -/
def masterHandouts (env : Enviroment) (time : Int) (isPrimary : Bool) (uninitialised : Int)
    (proto : TrackerProtocol) : List Handout :=
  if proto.forwardingSockFd > 0 ∧ isPrimary then []
  else
    let result := MasterTasks.getIdleTask pb isPrimary uninitialised env
      (time - env.fdcsTimeDiffer) proto
    (tasksUnder pb keyValuePairsTask result.2.1).map fun copy => ⟨copy, time, time⟩

def step (s : State) : Call → State
  | .addTask task =>
      { s with
        env := (s.env.addTask task).2
        keyed := Enviroment.keyed_addTask s.keyed task
        log := if (s.env.addTask task).1 then s.log ++ [.added task.taskId task.lease] else s.log }
  | .leaseTasks delays =>
      let result := leaseTasks s.env delays s.clock
      { env := result.2
        keyed := keyed_leaseTasks s.keyed s.clock
        clock := result.1.clock
        log := s.log ++ result.1.handouts.map Handout.event
        sent := s.sent ++ result.1.handouts.map Handout.copy }
  | .getIdleTask delays =>
      let result := getIdleTask s.env delays s.clock
      { s with
        env := result.2
        keyed := keyed_getIdleTask s.keyed s.clock
        clock := result.1.clock
        log := s.log ++ result.1.handouts.map Handout.event }
  | .masterGetIdleTask delay isPrimary uninitialised proto =>
      let time := s.clock + delay
      let handouts := masterHandouts pb s.env time isPrimary uninitialised proto
      { env := (MasterTasks.getIdleTask pb isPrimary uninitialised s.env
          (time - s.env.fdcsTimeDiffer) proto).2.2
        keyed := keyed_masterGetIdleTask pb s.keyed _ _ _ _
        clock := time
        log := s.log ++ handouts.map Handout.event
        sent := s.sent ++ handouts.map Handout.copy }
  | .findTask _ => s
  | .taskCompleted taskId =>
      { s with
        env := s.env.taskCompleted taskId
        keyed := Enviroment.keyed_taskCompleted s.keyed taskId
        log := if (s.env.findTask taskId).isSome then s.log ++ [.completed taskId] else s.log }
  | .clearCompletedTasks =>
      { s with env := s.env.clearCompletedTasks, keyed := s.keyed }

def start (store : Store) (clock : Int) : State := { store with clock := clock }

end Stores

section Simulation

def endsIn (entries : List (Str × FdcsTask)) (taskId : Str) : Option Int :=
  (OrderedMap.lookup taskId entries).map FdcsTask.lease

variable {σ : Type} (clockOf : σ → Int) (handoutsOf : σ → List Handout) (timeout : Int)

variable {clockOf handoutsOf timeout}

/-- The table of leases is that of the store, its clock not ahead. -/
structure Follows (t : Table Str) (env : Enviroment) (clock : Int) : Prop where
  ends : t.ends = endsIn env.tasks.entries
  clock_le : t.clock ≤ clock

variable (pb : Protobuf)

end Simulation

section Copies

def Cleared (copies : List FdcsTask) : Prop := ∀ copy ∈ copies, copy.leaseTime = none

theorem Cleared.append {copies more : List FdcsTask} (h : Cleared copies) (hmore : Cleared more) :
    Cleared (copies ++ more) := fun copy hcopy =>
  (List.mem_append.mp hcopy).elim (h copy) (hmore copy)

variable (pb : Protobuf)

end Copies

end FastDCS.StoreLeases
