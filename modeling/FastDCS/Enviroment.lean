import FastDCS.Messages

/-!
`Enviroment`: the task table and the list of completed tasks that a node's
threads share. Every method takes the lock of the object, so it is one step;
it reads the clock once, and `now` is what `NowTime()` returns there.
-/

namespace FastDCS

open FastDCS.Strings
open FastDCS.Messages

structure Settings where
  trackerGroup : Str
  trackerServer : Str
  preloadTasks : Int := 100
  taskDuplicate : Int := 10
  leaseTimeout : Int := 10
deriving DecidableEq

structure Enviroment where
  settings : Settings
  fdcsTimeDiffer : Int := 0
  completedTasks : List FdcsTask := []
  tasks : OrderedMap Str FdcsTask := .empty

namespace Enviroment

variable (env : Enviroment) (now : Int)

def fdcsTime : Int := now + env.fdcsTimeDiffer

def calcFdcsTimeDiffer (fdcsTime : Int) : Enviroment :=
  { env with fdcsTimeDiffer := fdcsTime - now }

def initFdcsTimeDiffer : Enviroment := { env with fdcsTimeDiffer := 0 }

def completedTasksSize : Nat := env.completedTasks.length

def tasksSize : Nat := env.tasks.entries.length

def findTask (taskId : Str) : Option FdcsTask := env.tasks.find? taskId

def addTask (task : FdcsTask) : Bool × Enviroment :=
  match env.tasks.find? task.taskId with
  | some _ => (false, env)
  | none => (true, { env with tasks := env.tasks.insert task.taskId task })

def clearCompletedTasks : Enviroment := { env with completedTasks := [] }

def updateTasks (tasks : List FdcsTask) : Enviroment :=
  { env.clearCompletedTasks with
    tasks := tasks.foldl (fun m task => m.insert task.taskId task) .empty }

def copyTasks (tasks : List FdcsTask) : List FdcsTask :=
  tasks ++ env.tasks.entries.map Prod.snd

/-- The comparison of all loops that look for a task without a running lease. -/
def isIdle (task : FdcsTask) : Bool := decide (task.lease < env.fdcsTime now)

def leased (task : FdcsTask) : FdcsTask :=
  task.setLeaseTime (env.fdcsTime now + env.settings.leaseTimeout)

/-- The loop state is what is left of `task_duplicate` and the output vector. -/
def leaseTasks (tasks : List FdcsTask) : List FdcsTask × Enviroment :=
  let result := env.tasks.walk
    (fun s task =>
      if env.isIdle now task then
        if s.1 ≤ 0 then ((s.1 - 1, s.2), task, false)
        else ((s.1 - 1, s.2 ++ [task.clearLeaseTime]), env.leased now task, true)
      else (s, task, true))
    (env.settings.taskDuplicate, tasks)
  (result.1.2, { env with tasks := result.2 })

def idleTasksSize : Nat :=
  ((env.tasks.entries.map Prod.snd).filter (env.isIdle now)).length

/-- The task returned is the one in the table, with its new lease. -/
def getIdleTask : Option FdcsTask × Enviroment :=
  let result := env.tasks.walk
    (fun found task =>
      if env.isIdle now task then (some (env.leased now task), env.leased now task, false)
      else (found, task, true))
    none
  (result.1, { env with tasks := result.2 })

/-- One turn of the loop of `LeaseTasks`. -/
def leaseTurn (s : Int × List FdcsTask) (task : FdcsTask) :
    (Int × List FdcsTask) × FdcsTask × Bool :=
  if env.isIdle now task then
    if s.1 ≤ 0 then ((s.1 - 1, s.2), task, false)
    else ((s.1 - 1, s.2 ++ [task.clearLeaseTime]), env.leased now task, true)
  else (s, task, true)

/-- One turn of the loop of `GetIdleTask`. -/
def idleTurn (found : Option FdcsTask) (task : FdcsTask) :
    Option FdcsTask × FdcsTask × Bool :=
  if env.isIdle now task then (some (env.leased now task), env.leased now task, false)
  else (found, task, true)

def taskCompleted (taskId : Str) : Enviroment :=
  match env.tasks.find? taskId with
  | some task =>
      { env with
        tasks := env.tasks.erase taskId
        completedTasks := env.completedTasks ++ [task] }
  | none => env

/-- The assignments a caller makes through the pointer `FindTask` returned. -/
def modifyTask (taskId : Str) (f : FdcsTask → FdcsTask) : Enviroment :=
  { env with tasks := env.tasks.modify taskId f }

variable {env now}

theorem isIdle_eq_true {task : FdcsTask} :
    env.isIdle now task = true ↔ task.lease < env.fdcsTime now := by
  simp [isIdle]

@[simp] theorem taskId_leased (task : FdcsTask) : (env.leased now task).taskId = task.taskId :=
  rfl

theorem addTask_of_some {task old : FdcsTask} (h : env.tasks.find? task.taskId = some old) :
    env.addTask task = (false, env) := by
  rw [addTask, h]

theorem addTask_of_none {task : FdcsTask} (h : env.tasks.find? task.taskId = none) :
    env.addTask task = (true, { env with tasks := env.tasks.insert task.taskId task }) := by
  rw [addTask, h]

theorem taskCompleted_of_some {taskId : Str} {task : FdcsTask}
    (h : env.tasks.find? taskId = some task) :
    env.taskCompleted taskId =
      { env with
        tasks := env.tasks.erase taskId
        completedTasks := env.completedTasks ++ [task] } := by
  rw [taskCompleted, h]

theorem taskCompleted_of_none {taskId : Str} (h : env.tasks.find? taskId = none) :
    env.taskCompleted taskId = env := by
  rw [taskCompleted, h]

theorem find?_foldl_insert {tasks : List FdcsTask} {m : OrderedMap Str FdcsTask} {taskId : Str} :
    (tasks.foldl (fun m task => m.insert task.taskId task) m).find? taskId =
      (m.find? taskId).or (tasks.find? fun task => task.taskId = taskId) := by
  induction tasks generalizing m with
  | nil => simp
  | cons task rest ih =>
      rw [List.foldl_cons, ih, OrderedMap.find?_insert]
      rcases eq_or_ne taskId task.taskId with rfl | hne
      · rw [if_pos rfl, List.find?_cons_of_pos (by simp)]
        cases m.find? task.taskId <;> rfl
      · rw [if_neg hne, List.find?_cons_of_neg (by simpa using hne.symm)]

theorem find?_updateTasks {tasks : List FdcsTask} {taskId : Str} :
    (env.updateTasks tasks).tasks.find? taskId =
      tasks.find? fun task => task.taskId = taskId := by
  rw [updateTasks, find?_foldl_insert]
  rfl

/-- Every task of the table stands under its own id. -/
def Keyed (env : Enviroment) : Prop :=
  ∀ taskId task, env.tasks.find? taskId = some task → task.taskId = taskId

theorem keyed_updateTasks (env : Enviroment) (tasks : List FdcsTask) :
    (env.updateTasks tasks).Keyed := by
  intro taskId task h
  rw [find?_updateTasks] at h
  simpa using List.find?_some h

theorem keyed_addTask (h : env.Keyed) (task : FdcsTask) : (env.addTask task).2.Keyed := by
  intro taskId stored hstored
  cases hfind : env.tasks.find? task.taskId with
  | some old =>
      rw [addTask_of_some hfind] at hstored
      exact h taskId stored hstored
  | none =>
      rw [addTask_of_none hfind, OrderedMap.find?_insert, hfind] at hstored
      split_ifs at hstored with heq
      · rw [heq, ← Option.some.inj hstored]
        rfl
      · exact h taskId stored hstored

theorem keyed_taskCompleted (h : env.Keyed) (taskId : Str) : (env.taskCompleted taskId).Keyed := by
  intro other stored hstored
  cases hfind : env.tasks.find? taskId with
  | none =>
      rw [taskCompleted_of_none hfind] at hstored
      exact h other stored hstored
  | some task =>
      rw [taskCompleted_of_some hfind, OrderedMap.find?_erase] at hstored
      split_ifs at hstored
      exact h other stored hstored

theorem keyed_modifyTask (h : env.Keyed) {taskId : Str} {f : FdcsTask → FdcsTask}
    (hf : ∀ task, (f task).taskId = taskId) : (env.modifyTask taskId f).Keyed := by
  intro other stored hstored
  rw [modifyTask, OrderedMap.find?_modify] at hstored
  split_ifs at hstored with heq
  · obtain ⟨old, _, rfl⟩ := Option.map_eq_some_iff.mp hstored
    rw [hf, heq]
  · exact h other stored hstored

/-- `LeaseTasks` leases the first idle tasks up to the number of duplicates. -/
theorem leaseTurn_changesFirst (env : Enviroment) (now : Int) :
    OrderedMap.ChangesFirst (env.leaseTurn now) (env.isIdle now) (env.leased now)
      FdcsTask.clearLeaseTime (fun s => s.1.toNat) Prod.snd where
  skips s task hp := by simp [leaseTurn, hp]
  stops s task hp hq := by
    have hle : s.1 ≤ 0 := Int.toNat_eq_zero.mp hq
    simp [leaseTurn, hp, hle]
  changes s task q hp hq := by
    have hlt : ¬s.1 ≤ 0 := by omega
    have hleft : (s.1 - 1).toNat = q := by omega
    simp [leaseTurn, hp, hlt, hleft]

theorem leaseTasks_eq_updateFirst (tasks : List FdcsTask) :
    env.leaseTasks now tasks =
      let sel := env.tasks.updateFirst (env.isIdle now) (env.leased now)
        env.settings.taskDuplicate.toNat
      (tasks ++ sel.1.map FdcsTask.clearLeaseTime, { env with tasks := sel.2 }) := by
  have h := (env.leaseTurn_changesFirst now).walk (env.settings.taskDuplicate, tasks) env.tasks
  exact Prod.ext h.2 (congrArg (fun m => { env with tasks := m }) h.1)

theorem getIdleTask_eq_updateFirst :
    env.getIdleTask now =
      let sel := env.tasks.updateFirst (env.isIdle now) (env.leased now) 1
      (sel.1.head?.map (env.leased now), { env with tasks := sel.2 }) := by
  have h := OrderedMap.walkList_findFirst (env.isIdle now) (env.leased now) none env.tasks.entries
  rw [Option.or_none] at h
  have htasks : (env.getIdleTask now).2.tasks =
      (env.tasks.updateFirst (env.isIdle now) (env.leased now) 1).2 :=
    OrderedMap.ext (congrArg Prod.snd h)
  have hfound : (env.getIdleTask now).1 =
      (env.tasks.updateFirst (env.isIdle now) (env.leased now) 1).1.head?.map
        (env.leased now) := by
    have := congrArg Prod.fst h
    exact this
  refine Prod.ext hfound ?_
  exact congrArg (fun m => { env with tasks := m }) htasks

end Enviroment

end FastDCS
