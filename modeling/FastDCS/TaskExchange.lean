import FastDCS.MasterTasks
import FastDCS.Runs

/-!
The task exchange thread of a master, one locked method a step, next to the
socket thread that completes reported tasks.
-/

namespace FastDCS.TaskExchange

open FastDCS.Strings
open FastDCS.Messages
open FastDCS.MasterTasks

section ExchangeThread

/-- The next method call of `TaskExchangeThread`. -/
inductive ExchangeCall where
  | waitPrimary
  | waitIdle
  | completedTasksSize (i : Nat)
  | completedTasks (i : Nat)
  | exportTaskUDF
  | clearCompletedTasks
  | checkIdle
  | importTaskUDF
  | addTask (rest : List FdcsTask)
deriving DecidableEq

/-- The thread: its next call, its vector `tasks` and, as history, everything
passed to `ExportTaskUDF` so far. -/
structure Exchange where
  call : ExchangeCall := .waitPrimary
  tasks : List FdcsTask := []
  exported : List FdcsTask := []

/-- One call of the thread. The imported tasks are what `ImportTaskUDF` puts
into its vector, where it is called. -/
def exchangeStep (isPrimary : Bool) (now : Int) (imported : List FdcsTask) (env : Enviroment)
    (thread : Exchange) : Option (Enviroment × Exchange) :=
  match thread.call with
  | .waitPrimary =>
      if isPrimary then some (env, { thread with call := .waitIdle }) else some (env, thread)
  | .waitIdle =>
      if env.idleTasksSize now ≥ env.settings.preloadTasks then some (env, thread)
      else some (env, { thread with call := .completedTasksSize 0, tasks := [] })
  | .completedTasksSize i =>
      if i < env.completedTasksSize then some (env, { thread with call := .completedTasks i })
      else some (env, { thread with call := .exportTaskUDF })
  | .completedTasks i =>
      match env.completedTasks[i]? with
      | none => none
      | some task =>
          some (env,
            { thread with call := .completedTasksSize (i + 1), tasks := thread.tasks ++ [task] })
  | .exportTaskUDF =>
      some (env,
        { thread with call := .clearCompletedTasks, exported := thread.exported ++ thread.tasks })
  | .clearCompletedTasks => some (env.clearCompletedTasks, { thread with call := .checkIdle })
  | .checkIdle =>
      if env.idleTasksSize now < env.settings.preloadTasks then
        some (env, { thread with call := .importTaskUDF })
      else some (env, { thread with call := .waitPrimary })
  | .importTaskUDF => some (env, { thread with call := .addTask imported, tasks := imported })
  | .addTask [] => some (env, { thread with call := .waitPrimary })
  | .addTask (task :: rest) => some ((env.addTask task).2, { thread with call := .addTask rest })

def aboutToExport (thread : Exchange) : List FdcsTask :=
  match thread.call with
  | .completedTasksSize _ | .completedTasks _ | .exportTaskUDF => thread.tasks
  | _ => []

/-- Past the last look at the size and before the list is cleared. -/
def Clearing (thread : Exchange) : Prop :=
  thread.call = .exportTaskUDF ∨ thread.call = .clearCompletedTasks

instance (thread : Exchange) : Decidable (Clearing thread) := by
  unfold Clearing
  infer_instance

/-- How far the thread has come with the completed list: `flushed` is what
earlier turns have exported and cleared. -/
def Progress (thread : Exchange) (completed flushed : List FdcsTask) : Prop :=
  match thread.call with
  | .completedTasksSize i => thread.exported = flushed ∧ i ≤ completed.length ∧
      thread.tasks = completed.take i
  | .completedTasks i => thread.exported = flushed ∧ i < completed.length ∧
      thread.tasks = completed.take i
  | .exportTaskUDF => thread.exported = flushed ∧ thread.tasks = completed
  | .clearCompletedTasks => thread.exported = flushed ++ completed
  | _ => thread.exported = flushed

theorem completedTasks_addTask (env : Enviroment) (task : FdcsTask) :
    (env.addTask task).2.completedTasks = env.completedTasks := by
  cases h : env.tasks.find? task.taskId with
  | none => rw [Enviroment.addTask_of_none h]
  | some old => rw [Enviroment.addTask_of_some h]

/-- What one call of the thread can do to the `Enviroment`. -/
theorem exchangeStep_cases {isPrimary : Bool} {now : Int} {imported : List FdcsTask}
    {env env' : Enviroment} {thread thread' : Exchange}
    (hstep : exchangeStep isPrimary now imported env thread = some (env', thread')) :
    (env' = env ∧ ∀ task rest, thread.call ≠ .addTask (task :: rest)) ∨
      (thread.call = .clearCompletedTasks ∧ env' = env.clearCompletedTasks ∧
        thread'.exported = thread.exported) ∨
      ∃ task rest, thread.call = .addTask (task :: rest) ∧ env' = (env.addTask task).2 ∧
        thread' = { thread with call := .addTask rest } := by
  obtain ⟨call, tasks, exported⟩ := thread
  cases call with
  | clearCompletedTasks =>
      obtain ⟨rfl, rfl⟩ := Prod.mk.inj (Option.some.inj hstep)
      exact Or.inr (Or.inl ⟨rfl, rfl, rfl⟩)
  | addTask rest =>
      cases rest with
      | nil =>
          obtain ⟨rfl, rfl⟩ := Prod.mk.inj (Option.some.inj hstep)
          exact Or.inl ⟨rfl, by simp⟩
      | cons task rest =>
          obtain ⟨rfl, rfl⟩ := Prod.mk.inj (Option.some.inj hstep)
          exact Or.inr (Or.inr ⟨task, rest, rfl, rfl, rfl⟩)
  | completedTasks i =>
      simp only [exchangeStep] at hstep
      split at hstep
      · cases hstep
      · obtain ⟨rfl, rfl⟩ := Prod.mk.inj (Option.some.inj hstep)
        exact Or.inl ⟨rfl, by simp⟩
  | exportTaskUDF =>
      obtain ⟨rfl, rfl⟩ := Prod.mk.inj (Option.some.inj hstep)
      exact Or.inl ⟨rfl, by simp⟩
  | importTaskUDF =>
      obtain ⟨rfl, rfl⟩ := Prod.mk.inj (Option.some.inj hstep)
      exact Or.inl ⟨rfl, by simp⟩
  | _ =>
      simp only [exchangeStep] at hstep
      split_ifs at hstep <;>
      · obtain ⟨rfl, rfl⟩ := Prod.mk.inj (Option.some.inj hstep)
        exact Or.inl ⟨rfl, by simp⟩

/-- Every call of the thread keeps its progress; clearing flushes the list. -/
theorem progress_exchangeStep {isPrimary : Bool} {now : Int} {imported : List FdcsTask}
    {env env' : Enviroment} {thread thread' : Exchange} {flushed : List FdcsTask}
    (h : Progress thread env.completedTasks flushed)
    (hstep : exchangeStep isPrimary now imported env thread = some (env', thread')) :
    ∃ flushed', flushed' ++ env'.completedTasks = flushed ++ env.completedTasks ∧
      Progress thread' env'.completedTasks flushed' := by
  obtain ⟨call, tasks, exported⟩ := thread
  cases call with
  | waitPrimary =>
      simp only [exchangeStep] at hstep
      split_ifs at hstep <;>
      · obtain ⟨rfl, rfl⟩ := Prod.mk.inj (Option.some.inj hstep)
        exact ⟨flushed, rfl, h⟩
  | waitIdle =>
      simp only [exchangeStep] at hstep
      split_ifs at hstep <;> obtain ⟨rfl, rfl⟩ := Prod.mk.inj (Option.some.inj hstep)
      · exact ⟨flushed, rfl, h⟩
      · exact ⟨flushed, rfl, h, Nat.zero_le _, rfl⟩
  | completedTasksSize i =>
      obtain ⟨hexp, hi, htasks⟩ := h
      simp only [exchangeStep] at hstep
      split_ifs at hstep with hlt <;> obtain ⟨rfl, rfl⟩ := Prod.mk.inj (Option.some.inj hstep)
      · exact ⟨flushed, rfl, hexp, hlt, htasks⟩
      · -- the loop ends with the whole list copied
        refine ⟨flushed, rfl, hexp, ?_⟩
        exact htasks.trans (List.take_of_length_le (not_lt.mp hlt))
  | completedTasks i =>
      obtain ⟨hexp, hi, htasks⟩ := h
      simp only [exchangeStep, List.getElem?_eq_getElem hi, Option.some.injEq] at hstep
      obtain ⟨rfl, rfl⟩ := Prod.mk.inj hstep
      refine ⟨flushed, rfl, hexp, hi, ?_⟩
      change tasks = _ at htasks
      rw [htasks, List.take_append_getElem hi]
  | exportTaskUDF =>
      obtain ⟨hexp, htasks⟩ := h
      obtain ⟨rfl, rfl⟩ := Prod.mk.inj (Option.some.inj hstep)
      refine ⟨flushed, rfl, ?_⟩
      change exported ++ tasks = _
      rw [← hexp, ← htasks]
  | clearCompletedTasks =>
      obtain ⟨rfl, rfl⟩ := Prod.mk.inj (Option.some.inj hstep)
      exact ⟨flushed ++ env.completedTasks, by simp [Enviroment.clearCompletedTasks], h⟩
  | checkIdle =>
      simp only [exchangeStep] at hstep
      split_ifs at hstep <;>
      · obtain ⟨rfl, rfl⟩ := Prod.mk.inj (Option.some.inj hstep)
        exact ⟨flushed, rfl, h⟩
  | importTaskUDF =>
      obtain ⟨rfl, rfl⟩ := Prod.mk.inj (Option.some.inj hstep)
      exact ⟨flushed, rfl, h⟩
  | addTask rest =>
      cases rest with
      | nil =>
          obtain ⟨rfl, rfl⟩ := Prod.mk.inj (Option.some.inj hstep)
          exact ⟨flushed, rfl, h⟩
      | cons task rest =>
          obtain ⟨rfl, rfl⟩ := Prod.mk.inj (Option.some.inj hstep)
          exact ⟨flushed, by rw [completedTasks_addTask], by rw [completedTasks_addTask]; exact h⟩

theorem progress_append {thread : Exchange} {completed flushed : List FdcsTask}
    (task : FdcsTask) (hclearing : ¬Clearing thread) (h : Progress thread completed flushed) :
    Progress thread (completed ++ [task]) flushed := by
  obtain ⟨call, tasks, exported⟩ := thread
  cases call with
  | completedTasksSize i =>
      obtain ⟨hexp, hi, htasks⟩ := h
      refine ⟨hexp, ?_, ?_⟩
      · simp only [List.length_append]
        omega
      · rw [htasks, List.take_append_of_le_length hi]
  | completedTasks i =>
      obtain ⟨hexp, hi, htasks⟩ := h
      refine ⟨hexp, ?_, ?_⟩
      · simp only [List.length_append]
        omega
      · rw [htasks, List.take_append_of_le_length (Nat.le_of_lt hi)]
  | exportTaskUDF => exact absurd (Or.inl rfl) hclearing
  | clearCompletedTasks => exact absurd (Or.inr rfl) hclearing
  | _ => exact h

end ExchangeThread

section System

variable (pb : Protobuf)

/-- Where the socket thread stands: between two messages, or in the loop of
`Master::TaskCompleted` with the reports it has not looked at yet. -/
inductive SocketCall where
  | idle
  | findTask (reports : List FdcsTask)
  | checkLease (report : FdcsTask) (rest : List FdcsTask)
  | taskCompleted (report : FdcsTask) (rest : List FdcsTask)
deriving DecidableEq

def SocketCall.completing : SocketCall → Bool
  | .taskCompleted _ _ => true
  | _ => false

def pendingReports : SocketCall → List FdcsTask
  | .idle => []
  | .findTask reports => reports
  | .checkLease report rest => report :: rest
  | .taskCompleted report rest => report :: rest

/-- A primary master: both threads and the tasks `TaskCompleted` has moved. -/
structure State where
  env : Enviroment
  exchange : Exchange := {}
  socket : SocketCall := .idle
  moved : List FdcsTask := []

/-- Which thread takes a step, and what it meets: the clock, what
`ImportTaskUDF` returns, the message received, the size of a lease request. -/
inductive Action where
  | exchange (now : Int) (imported : List FdcsTask)
  | receive (proto : TrackerProtocol)
  | socket (now : Int)
  | lease (now : Int) (quota : Nat)

def socketStep (now : Int) (s : State) : Option State :=
  match s.socket with
  | .idle => none
  | .findTask [] => some { s with socket := .idle }
  | .findTask (report :: rest) =>
      match s.env.findTask report.taskId with
      | none => some { s with socket := .findTask rest }
      | some _ => some { s with socket := .checkLease report rest }
  | .checkLease report rest =>
      -- the task is read and written through the pointer `FindTask` returned
      match s.env.findTask report.taskId with
      | none => none
      | some envTask =>
          if envTask.lease < s.env.fdcsTime now then some { s with socket := .findTask rest }
          else
            some { s with
              env := s.env.modifyTask report.taskId fun _ => report.clearLeaseTime
              socket := .taskCompleted report rest }
  | .taskCompleted report rest =>
      some { s with
        env := s.env.taskCompleted report.taskId
        socket := .findTask rest
        moved := s.moved ++ (s.env.tasks.find? report.taskId).toList }

def step (s : State) : Action → Option State
  | .exchange now imported =>
      (exchangeStep true now imported s.env s.exchange).map fun r =>
        { s with env := r.1, exchange := r.2 }
  | .receive proto =>
      match s.socket with
      | .idle => some { s with socket := .findTask (tasksUnder pb keyValuePairsTaskComplete proto) }
      | _ => none
  | .socket now => socketStep now s
  | .lease now quota =>
      match s.socket with
      | .idle => some { s with env := (leaseFirst s.env now quota).2 }
      | _ => none

def initial (settings : Settings) : State where
  env := { settings := settings }

/-- Every moved task is completed, about to be exported or exported, counted
with multiplicity. -/
def NothingLost (s : State) : Prop :=
  s.moved.Subperm (s.env.completedTasks ++ aboutToExport s.exchange ++ s.exchange.exported)

/-- `Enviroment::TaskCompleted` is not called while the exchange thread is past
its last look at the completed list and has not cleared the list. -/
def OutsideClearing (s : State) : Action → Prop
  | .socket _ => s.socket.completing = true → ¬Clearing s.exchange
  | _ => True

instance (s : State) (a : Action) : Decidable (OutsideClearing s a) := by
  cases a <;> unfold OutsideClearing <;> infer_instance

/-- Every moved task is in the completed list or was flushed from it, and the
exchange thread has exported what it flushed. -/
def Accounted (s : State) : Prop :=
  ∃ flushed, s.moved = flushed ++ s.env.completedTasks ∧
    Progress s.exchange s.env.completedTasks flushed

theorem socketStep_cases {s t : State} {now : Int} (hstep : socketStep now s = some t) :
    (∃ call, t = { s with socket := call } ∧ call.completing = false ∧
        s.socket.completing = false ∧ pendingReports call ⊆ pendingReports s.socket) ∨
      (∃ report rest task, s.socket = .checkLease report rest ∧
        s.env.tasks.find? report.taskId = some task ∧ s.env.fdcsTime now ≤ task.lease ∧
        t = { s with
          env := s.env.modifyTask report.taskId fun _ => report.clearLeaseTime
          socket := .taskCompleted report rest }) ∨
      ∃ report rest, s.socket = .taskCompleted report rest ∧
        t = { s with
          env := s.env.taskCompleted report.taskId
          socket := .findTask rest
          moved := s.moved ++ (s.env.tasks.find? report.taskId).toList } := by
  obtain ⟨env, exchange, socket, moved⟩ := s
  cases socket with
  | idle => cases hstep
  | findTask reports =>
      cases reports with
      | nil => exact Or.inl ⟨.idle, (Option.some.inj hstep).symm, rfl, rfl, List.Subset.refl _⟩
      | cons report rest =>
          simp only [socketStep] at hstep
          split at hstep
          · exact Or.inl ⟨.findTask rest, (Option.some.inj hstep).symm, rfl, rfl,
              List.subset_cons_self report rest⟩
          · exact Or.inl ⟨.checkLease report rest, (Option.some.inj hstep).symm, rfl, rfl,
              List.Subset.refl _⟩
  | checkLease report rest =>
      simp only [socketStep] at hstep
      split at hstep
      · cases hstep
      · rename_i task hfind
        split_ifs at hstep with hlt
        · exact Or.inl ⟨.findTask rest, (Option.some.inj hstep).symm, rfl, rfl,
            List.subset_cons_self report rest⟩
        · exact Or.inr (Or.inl ⟨report, rest, task, rfl, hfind, not_lt.mp hlt,
            (Option.some.inj hstep).symm⟩)
  | taskCompleted report rest =>
      exact Or.inr (Or.inr ⟨report, rest, rfl, (Option.some.inj hstep).symm⟩)

/-- Without interruption the socket thread computes `Master::TaskCompleted`. -/
theorem run_socket_eq_foldl_completeTask {now : Int} {s : State} {reports : List FdcsTask}
    (hs : s.socket = .findTask reports) :
    ∃ n, Runs.run (step pb) s (List.replicate n (.socket now)) =
      some { s with
        env := reports.foldl (completeTask now) s.env
        socket := .idle
        moved := s.moved ++ (acceptedReports now s.env reports).map FdcsTask.clearLeaseTime } := by
  induction reports generalizing s with
  | nil =>
      refine ⟨1, ?_⟩
      simp [Runs.run, step, socketStep, hs, acceptedReports]
  | cons report rest ih =>
      rcases em (Accepts now s.env report.taskId) with hacc | hrej
      · obtain ⟨task, hfind, hle⟩ := id hacc
        have hmodified : (s.env.modifyTask report.taskId
            fun _ => report.clearLeaseTime).tasks.find? report.taskId =
              some report.clearLeaseTime := by
          simp [Enviroment.modifyTask, OrderedMap.find?_modify, hfind]
        obtain ⟨n, hn⟩ := ih (s := { s with
          env := completeTask now s.env report
          socket := .findTask rest
          moved := s.moved ++ [report.clearLeaseTime] }) rfl
        refine ⟨n + 3, ?_⟩
        rw [acceptedReports, if_pos hacc, List.foldl_cons]
        simp only [List.replicate_succ, Runs.run, step, socketStep, hs, Enviroment.findTask,
          hfind, if_neg (not_lt.mpr hle), Option.bind_some, hmodified, Option.toList_some]
        rw [completeTask, Enviroment.findTask, hfind] at hn
        simp only [if_neg (not_lt.mpr hle)] at hn
        rw [hn]
        simp [completeTask, Enviroment.findTask, hfind, not_lt.mpr hle]
      · obtain ⟨n, hn⟩ := ih (s := { s with socket := .findTask rest }) rfl
        rw [acceptedReports, if_neg hrej, List.foldl_cons, completeTask_of_not_accepts hrej]
        cases hfind : s.env.tasks.find? report.taskId with
        | none =>
            refine ⟨n + 1, ?_⟩
            simp only [List.replicate_succ, Runs.run, step, socketStep, hs,
              Enviroment.findTask, hfind, Option.bind_some]
            exact hn
        | some task =>
            have hlt : task.lease < s.env.fdcsTime now :=
              not_le.mp fun hle => hrej ⟨task, hfind, hle⟩
            refine ⟨n + 2, ?_⟩
            simp only [List.replicate_succ, Runs.run, step, socketStep, hs,
              Enviroment.findTask, hfind, if_pos hlt, Option.bind_some]
            exact hn

theorem accounted_socketStep {s t : State} {now : Int} (h : Accounted s)
    (hallowed : OutsideClearing s (.socket now)) (hstep : socketStep now s = some t) :
    Accounted t := by
  rcases socketStep_cases hstep with ⟨call, rfl, _⟩ |
    ⟨report, rest, task, _, _, _, rfl⟩ | ⟨report, rest, hsocket, rfl⟩
  · exact h
  · exact h
  · obtain ⟨flushed, hmoved, hprogress⟩ := h
    cases hfind : s.env.tasks.find? report.taskId with
    | none =>
        refine ⟨flushed, ?_, ?_⟩
        · simpa [Enviroment.taskCompleted_of_none hfind] using hmoved
        · simpa [Enviroment.taskCompleted_of_none hfind] using hprogress
    | some task =>
        have hout : ¬Clearing s.exchange := hallowed (by rw [hsocket]; rfl)
        refine ⟨flushed, ?_, ?_⟩
        · simp only [Enviroment.taskCompleted_of_some hfind, Option.toList_some]
          rw [← List.append_assoc]
          exact congrArg (· ++ [task]) hmoved
        · simp only [Enviroment.taskCompleted_of_some hfind]
          exact progress_append task hout hprogress

theorem accounted_step {s t : State} {a : Action} (h : Accounted s)
    (hallowed : OutsideClearing s a) (hstep : step pb s a = some t) : Accounted t := by
  cases a with
  | exchange now imported =>
      obtain ⟨⟨env', thread'⟩, hcall, rfl⟩ := Option.map_eq_some_iff.mp hstep
      obtain ⟨flushed, hmoved, hprogress⟩ := h
      obtain ⟨flushed', heq, hprogress'⟩ := progress_exchangeStep hprogress hcall
      exact ⟨flushed', hmoved.trans heq.symm, hprogress'⟩
  | receive proto =>
      simp only [step] at hstep
      split at hstep
      · obtain rfl := Option.some.inj hstep
        exact h
      · cases hstep
  | socket now => exact accounted_socketStep h hallowed hstep
  | lease now quota =>
      simp only [step] at hstep
      split at hstep
      · obtain rfl := Option.some.inj hstep
        exact h
      · cases hstep

theorem Accounted.nothingLost {s : State} (h : Accounted s) : NothingLost s := by
  obtain ⟨flushed, hmoved, hprogress⟩ := h
  rw [NothingLost, hmoved]
  obtain ⟨env, ⟨call, tasks, exported⟩, socket, moved⟩ := s
  have hflushed : flushed.Sublist exported := by
    cases call with
    | completedTasksSize i => exact hprogress.1 ▸ List.Sublist.refl _
    | completedTasks i => exact hprogress.1 ▸ List.Sublist.refl _
    | exportTaskUDF => exact hprogress.1 ▸ List.Sublist.refl _
    | clearCompletedTasks =>
        have hexp : exported = flushed ++ env.completedTasks := hprogress
        exact hexp ▸ List.sublist_append_left _ _
    | _ => exact (hprogress : exported = flushed) ▸ List.Sublist.refl _
  have hall : (env.completedTasks ++ flushed).Sublist
      (env.completedTasks ++ aboutToExport ⟨call, tasks, exported⟩ ++ exported) :=
    (List.sublist_append_left _ _).append hflushed
  exact (List.perm_append_comm.subperm_right).mp hall.subperm

def oneTaskSettings : Settings where
  trackerGroup := "10.0.0.1:1".toList
  trackerServer := "10.0.0.1:1".toList
  preloadTasks := 1

/-- One task is imported, leased and reported; its report is accepted after the
given number of further calls of the exchange thread, and the thread then goes
on to clear the completed list. -/
def oneTaskRun (callsBefore : Nat) : List Action :=
  let task : FdcsTask := { taskId := ['t'] }
  (List.replicate 10 (.exchange 1 [task]) : List Action) ++
    ([.lease 1 1, .receive (taskReport plainProtobuf [task])] : List Action) ++
    (List.replicate callsBefore (.exchange 1 []) : List Action) ++
    (List.replicate 3 (.socket 1) : List Action) ++
    (List.replicate (6 - callsBefore) (.exchange 1 []) : List Action)

/-- No completed result is lost in a run where no completion falls between the
exchange thread's last look at the completed list and its clearing. -/
theorem nothing_lost_of_completions_outside_clearing {settings : Settings}
    {actions : List Action} {s : State}
    (hallowed : Runs.Along (step pb) OutsideClearing (initial settings) actions)
    (hrun : Runs.run (step pb) (initial settings) actions = some s) : NothingLost s := by
  have hinit : Accounted (initial settings) := ⟨[], rfl, rfl⟩
  exact (Runs.invariant_along (fun _ _ _ h ha hs => accounted_step pb h ha hs) hinit hallowed
    hrun).nothingLost

theorem oneTaskRun_exports :
    ∃ s, Runs.run (step plainProtobuf) (initial oneTaskSettings) (oneTaskRun 1) = some s ∧
      s.exchange.exported.map FdcsTask.taskId = [['t']] ∧ NothingLost s := by
  have hexported : (Runs.run (step plainProtobuf) (initial oneTaskSettings) (oneTaskRun 1)).map
      (fun s => s.exchange.exported.map FdcsTask.taskId) = some [['t']] := by decide
  obtain ⟨s, hrun, hids⟩ := Option.map_eq_some_iff.mp hexported
  exact ⟨s, hrun, hids, nothing_lost_of_completions_outside_clearing plainProtobuf
    (by decide) hrun⟩

/-- When the report is accepted after the last look at the list, it is cleared
without having been exported. -/
theorem not_every_run_keeps_results :
    ¬∀ (pb : Protobuf) (settings : Settings) (actions : List Action) (s : State),
      Runs.run (step pb) (initial settings) actions = some s → NothingLost s := by
  intro h
  have hlost : (Runs.run (step plainProtobuf) (initial oneTaskSettings) (oneTaskRun 2)).map
      (fun s => (s.moved.length,
        s.env.completedTasks ++ aboutToExport s.exchange ++ s.exchange.exported)) =
      some (1, []) := by decide
  obtain ⟨s, hrun, hs⟩ := Option.map_eq_some_iff.mp hlost
  obtain ⟨hmoved, hkept⟩ := Prod.mk.inj hs
  have hsub := (h plainProtobuf oneTaskSettings (oneTaskRun 2) s hrun).length_le
  rw [hmoved, hkept] at hsub
  exact absurd hsub (by decide)

end System

end FastDCS.TaskExchange
