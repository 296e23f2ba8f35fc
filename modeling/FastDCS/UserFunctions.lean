import FastDCS.TaskExchange
import FastDCS.Worker

/-!
What the values of the three user functions are for, and what the threads that
call them make of a false one.
-/

namespace FastDCS.UserFunctions

open FastDCS.Strings
open FastDCS.Messages
open FastDCS.Runs

variable (pb : Protobuf)

section ExportAndImport

/-- A master and what its user functions have returned. `importOk` belongs to
the vector that is being added; `failed` are the tasks that were offered to an
`ExportTaskUDF` that returned false and to none that returned true since; `added`
are the ids that came into `tasks_` from the vector of an `ImportTaskUDF` that
returned false. -/
structure MasterHistory where
  master : TaskExchange.State
  importOk : Bool := true
  failed : List FdcsTask := []
  added : List Str := []

def newIds (before after : Enviroment) : List Str :=
  after.tasks.keys.filter fun taskId => decide (taskId ∉ before.tasks.keys)

/-- A step of the master, where a user function that is called returns the given
value. -/
def masterStep (h : MasterHistory) (a : TaskExchange.Action × Bool) : Option MasterHistory :=
  (TaskExchange.step pb h.master a.1).map fun master =>
    match a.1, h.master.exchange.call with
    | .exchange _ _, .exportTaskUDF =>
        { h with
          master := master
          failed :=
            if a.2 then h.failed.filter fun task => decide (task ∉ h.master.exchange.tasks)
            else h.failed ++ h.master.exchange.tasks }
    | .exchange _ _, .importTaskUDF => { h with master := master, importOk := a.2 }
    | .exchange _ _, .addTask _ =>
        { h with
          master := master
          added := if h.importOk then h.added else h.added ++ newIds h.master.env master.env }
    | _, _ => { h with master := master }

def masterInitial (settings : Settings) : MasterHistory where
  master := TaskExchange.initial settings

/-- What could not be exported is still completed, and nothing is there that was
imported in vain. -/
def MasterKeeps (h : MasterHistory) : Prop :=
  h.failed ⊆ h.master.env.completedTasks ∧ h.added = []

/-- The list is cleared only after an export that has not failed, or has failed
with nothing to export; what a failed import has left in its vector is in the
table already. -/
def AllowedCall (h : MasterHistory) : TaskExchange.ExchangeCall → Prop
  | .clearCompletedTasks => h.failed = []
  | .addTask (task :: _) =>
      h.importOk = false → (h.master.env.findTask task.taskId).isSome = true
  | _ => True

instance (h : MasterHistory) : ∀ call, Decidable (AllowedCall h call)
  | .clearCompletedTasks => inferInstanceAs (Decidable (_ = _))
  | .addTask (_ :: _) => inferInstanceAs (Decidable (_ → _))
  | .addTask [] | .waitPrimary | .waitIdle | .completedTasksSize _ | .completedTasks _
  | .exportTaskUDF | .checkIdle | .importTaskUDF => isTrue trivial

def MasterAllowed (h : MasterHistory) : TaskExchange.Action × Bool → Prop
  | (.exchange _ _, _) => AllowedCall h h.master.exchange.call
  | _ => True

instance (h : MasterHistory) : ∀ a, Decidable (MasterAllowed h a)
  | (.exchange _ _, _) => inferInstanceAs (Decidable (AllowedCall h _))
  | (.receive _, _) | (.socket _, _) | (.lease _ _, _) => isTrue trivial

variable {pb}
variable {h h' : MasterHistory} {m m' : TaskExchange.State}

/-- What is about to be exported is in the completed list. -/
def Offers (m : TaskExchange.State) : Prop :=
  TaskExchange.aboutToExport m.exchange ⊆ m.env.completedTasks

theorem offers_exchangeStep {isPrimary : Bool} {now : Int} {imported : List FdcsTask}
    {env env' : Enviroment} {thread thread' : TaskExchange.Exchange}
    (hoffers : TaskExchange.aboutToExport thread ⊆ env.completedTasks)
    (hstep : TaskExchange.exchangeStep isPrimary now imported env thread = some (env', thread')) :
    TaskExchange.aboutToExport thread' ⊆ env'.completedTasks := by
  obtain ⟨call, tasks, exported⟩ := thread
  cases call with
  | completedTasks i =>
      simp only [TaskExchange.exchangeStep] at hstep
      split at hstep
      · cases hstep
      · next task htask =>
          obtain ⟨rfl, rfl⟩ := Prod.mk.inj (Option.some.inj hstep)
          exact List.append_subset.mpr
            ⟨hoffers, List.cons_subset.mpr
              ⟨List.mem_of_getElem? htask, List.nil_subset _⟩⟩
  | addTask rest =>
      cases rest <;>
      · obtain ⟨rfl, rfl⟩ := Prod.mk.inj (Option.some.inj hstep)
        exact List.nil_subset _
  | clearCompletedTasks =>
      obtain ⟨rfl, rfl⟩ := Prod.mk.inj (Option.some.inj hstep)
      exact List.nil_subset _
  | exportTaskUDF =>
      obtain ⟨rfl, rfl⟩ := Prod.mk.inj (Option.some.inj hstep)
      exact List.nil_subset _
  | importTaskUDF =>
      obtain ⟨rfl, rfl⟩ := Prod.mk.inj (Option.some.inj hstep)
      exact List.nil_subset _
  | completedTasksSize i =>
      simp only [TaskExchange.exchangeStep] at hstep
      split_ifs at hstep <;>
      · obtain ⟨rfl, rfl⟩ := Prod.mk.inj (Option.some.inj hstep)
        exact hoffers
  | _ =>
      simp only [TaskExchange.exchangeStep] at hstep
      split_ifs at hstep <;>
      · obtain ⟨rfl, rfl⟩ := Prod.mk.inj (Option.some.inj hstep)
        exact List.nil_subset _

/-- No thread but the exchange thread takes a task off the completed list. -/
theorem completedTasks_subset_step {a : TaskExchange.Action}
    (hstep : TaskExchange.step pb m a = some m')
    (hcall : ∀ now imported, a = .exchange now imported →
      m.exchange.call ≠ .clearCompletedTasks) :
    m.env.completedTasks ⊆ m'.env.completedTasks := by
  cases a with
  | exchange now imported =>
      obtain ⟨⟨env', thread'⟩, hexchange, rfl⟩ := Option.map_eq_some_iff.mp hstep
      rcases TaskExchange.exchangeStep_cases hexchange with
        ⟨rfl, _⟩ | ⟨hclear, _⟩ | ⟨task, rest, _, rfl, _⟩
      · exact List.Subset.refl _
      · exact absurd hclear (hcall now imported rfl)
      · rw [TaskExchange.completedTasks_addTask]
        exact List.Subset.refl _
  | receive proto =>
      simp only [TaskExchange.step] at hstep
      split at hstep
      · obtain rfl := Option.some.inj hstep
        exact List.Subset.refl _
      · cases hstep
  | socket now =>
      rcases TaskExchange.socketStep_cases hstep with ⟨call, rfl, _⟩ |
        ⟨report, rest, task, _, _, _, rfl⟩ | ⟨report, rest, _, rfl⟩
      · exact List.Subset.refl _
      · exact List.Subset.refl _
      · cases hfind : m.env.tasks.find? report.taskId with
        | none =>
            rw [Enviroment.taskCompleted_of_none hfind]
            exact List.Subset.refl _
        | some task =>
            rw [Enviroment.taskCompleted_of_some hfind]
            exact List.subset_append_left _ _
  | lease now quota =>
      simp only [TaskExchange.step] at hstep
      split at hstep
      · obtain rfl := Option.some.inj hstep
        exact List.Subset.refl _
      · cases hstep

theorem exchange_of_step {a : TaskExchange.Action} (hstep : TaskExchange.step pb m a = some m')
    (hother : ∀ now imported, a ≠ .exchange now imported) : m'.exchange = m.exchange := by
  cases a with
  | exchange now imported => exact absurd rfl (hother now imported)
  | receive proto =>
      simp only [TaskExchange.step] at hstep
      split at hstep
      · obtain rfl := Option.some.inj hstep
        rfl
      · cases hstep
  | socket now =>
      rcases TaskExchange.socketStep_cases hstep with ⟨call, rfl, _⟩ |
        ⟨report, rest, task, _, _, _, rfl⟩ | ⟨report, rest, _, rfl⟩
      · rfl
      · rfl
      · rfl
  | lease now quota =>
      simp only [TaskExchange.step] at hstep
      split at hstep
      · obtain rfl := Option.some.inj hstep
        rfl
      · cases hstep

theorem offers_step {a : TaskExchange.Action} (hoffers : Offers m)
    (hstep : TaskExchange.step pb m a = some m') : Offers m' := by
  have hother : (∀ now imported, a ≠ .exchange now imported) → Offers m' := by
    intro hother
    have hcompleted := completedTasks_subset_step hstep
      fun now imported ha => absurd ha (hother now imported)
    rw [Offers, exchange_of_step hstep hother]
    exact List.Subset.trans hoffers hcompleted
  cases a with
  | exchange now imported =>
      obtain ⟨⟨env', thread'⟩, hexchange, rfl⟩ := Option.map_eq_some_iff.mp hstep
      exact offers_exchangeStep hoffers hexchange
  | receive proto => exact hother (by simp)
  | socket now => exact hother (by simp)
  | lease now quota => exact hother (by simp)

/-- A task that is added puts its id into the table, if it is not there. -/
theorem newIds_addTask_eq_nil_iff (env : Enviroment) (task : FdcsTask) :
    newIds env (env.addTask task).2 = [] ↔ (env.findTask task.taskId).isSome = true := by
  rw [newIds, List.filter_eq_nil_iff, Enviroment.findTask]
  cases hfind : env.tasks.find? task.taskId with
  | some old =>
      rw [Enviroment.addTask_of_some hfind]
      simp
  | none =>
      rw [Enviroment.addTask_of_none hfind]
      refine iff_of_false ?_ Bool.false_ne_true
      intro hall
      have hnew : task.taskId ∈ (env.tasks.insert task.taskId task).keys := by
        rw [OrderedMap.mem_keys_iff, OrderedMap.find?_insert, if_pos rfl]
        rfl
      have hold : task.taskId ∉ env.tasks.keys := (env.tasks.not_mem_keys_iff).mpr hfind
      exact hall task.taskId hnew (decide_eq_true hold)

theorem newIds_self (env : Enviroment) : newIds env env = [] := by
  simp [newIds]

/-- A step keeps what the user functions have failed to do away from the tasks
exactly if it is allowed. -/
theorem masterKeeps_step_iff {a : TaskExchange.Action × Bool} (hkeeps : MasterKeeps h)
    (hoffers : Offers h.master) (hstep : masterStep pb h a = some h') :
    MasterKeeps h' ↔ MasterAllowed h a := by
  obtain ⟨hfailed, hadded⟩ := hkeeps
  obtain ⟨a, ok⟩ := a
  obtain ⟨master, hmaster, rfl⟩ := Option.map_eq_some_iff.mp hstep
  have hquiet : (∀ now imported, a = .exchange now imported →
      h.master.exchange.call ≠ .clearCompletedTasks) →
        h.failed ⊆ master.env.completedTasks := fun hcall =>
    List.Subset.trans hfailed (completedTasks_subset_step hmaster hcall)
  cases a with
  | receive proto =>
      exact iff_of_true ⟨hquiet (by simp), hadded⟩ trivial
  | socket now => exact iff_of_true ⟨hquiet (by simp), hadded⟩ trivial
  | lease now quota => exact iff_of_true ⟨hquiet (by simp), hadded⟩ trivial
  | exchange now imported =>
      have hcompleted : h.master.exchange.call ≠ .clearCompletedTasks →
          h.failed ⊆ master.env.completedTasks := fun hcall => hquiet fun _ _ _ => hcall
      obtain ⟨⟨env', thread'⟩, hexchange, rfl⟩ := Option.map_eq_some_iff.mp hmaster
      rw [MasterAllowed]
      cases hcall : h.master.exchange.call with
      | clearCompletedTasks =>
          simp only [TaskExchange.exchangeStep, hcall] at hexchange
          obtain ⟨rfl, rfl⟩ := Prod.mk.inj (Option.some.inj hexchange)
          constructor
          · intro hkept
            exact List.subset_nil.mp hkept.1
          · intro hnone
            exact ⟨List.subset_nil.mpr hnone, hadded⟩
      | exportTaskUDF =>
          have hall := hcompleted (by simp [hcall])
          have hoffered : h.master.exchange.tasks ⊆ h.master.env.completedTasks := by
            rw [Offers, TaskExchange.aboutToExport, hcall] at hoffers
            exact hoffers
          simp only [TaskExchange.exchangeStep, hcall] at hexchange
          obtain ⟨rfl, rfl⟩ := Prod.mk.inj (Option.some.inj hexchange)
          refine iff_of_true ⟨?_, hadded⟩ trivial
          cases ok with
          | true => exact List.Subset.trans (List.filter_subset_self _) hall
          | false => exact List.append_subset.mpr ⟨hall, hoffered⟩
      | addTask rest =>
          have hall := hcompleted (by simp [hcall])
          simp only [TaskExchange.exchangeStep, hcall] at hexchange
          cases rest with
          | nil =>
              obtain ⟨rfl, rfl⟩ := Prod.mk.inj (Option.some.inj hexchange)
              refine iff_of_true ⟨hall, ?_⟩ trivial
              simp only [hadded, newIds_self, List.append_nil, ite_self]
          | cons task rest =>
              obtain ⟨rfl, rfl⟩ := Prod.mk.inj (Option.some.inj hexchange)
              rw [AllowedCall, ← newIds_addTask_eq_nil_iff]
              cases hok : h.importOk with
              | true =>
                  refine iff_of_true ⟨hall, ?_⟩ (by simp)
                  simp only [if_true, hadded]
              | false =>
                  simp only [MasterKeeps, hadded, Bool.false_eq_true, if_false,
                    List.nil_append, forall_const]
                  exact and_iff_right hall
      | importTaskUDF => exact iff_of_true ⟨hcompleted (by simp [hcall]), hadded⟩ trivial
      | waitPrimary => exact iff_of_true ⟨hcompleted (by simp [hcall]), hadded⟩ trivial
      | waitIdle => exact iff_of_true ⟨hcompleted (by simp [hcall]), hadded⟩ trivial
      | completedTasksSize i =>
          exact iff_of_true ⟨hcompleted (by simp [hcall]), hadded⟩ trivial
      | completedTasks i => exact iff_of_true ⟨hcompleted (by simp [hcall]), hadded⟩ trivial
      | checkIdle => exact iff_of_true ⟨hcompleted (by simp [hcall]), hadded⟩ trivial

theorem masterKeeps_throughout_iff {settings : Settings}
    {as : List (TaskExchange.Action × Bool)}
    (hrun : run (masterStep pb) (masterInitial settings) as = some h) :
    Throughout (masterStep pb) MasterKeeps (masterInitial settings) as ↔
      Along (masterStep pb) MasterAllowed (masterInitial settings) as := by
  have hstep : ∀ h a h', MasterKeeps h → Offers h.master → masterStep pb h a = some h' →
      (MasterKeeps h' ↔ MasterAllowed h a) ∧ Offers h'.master := by
    intro h a h' hkeeps hoffers hstep
    refine ⟨masterKeeps_step_iff hkeeps hoffers hstep, ?_⟩
    obtain ⟨master, hmaster, rfl⟩ := Option.map_eq_some_iff.mp hstep
    have hnext := offers_step hoffers hmaster
    split <;> exact hnext
  exact throughout_iff_along hstep ⟨List.nil_subset _, rfl⟩ (List.nil_subset _) hrun

end ExportAndImport

section Computing

/-- A worker, which threads have a task whose `ComputingUDF` has returned false,
and the tasks that have been moved to the completed list after a true and after
a false value. -/
structure WorkerHistory where
  worker : Worker.State
  failed : Nat → Bool := fun _ => false
  finished : List FdcsTask := []
  unfinished : List FdcsTask := []

/-- What a step has put at the end of the completed list. -/
def moved (before after : Worker.State) : List FdcsTask :=
  after.env.completedTasks.drop before.env.completedTasks.length

/-- What is noted of a call of a computing thread. -/
def WorkerHistory.note (h : WorkerHistory) (worker : Worker.State) (thread : Nat) (ok : Bool) :
    Worker.ComputingCall → WorkerHistory
  | .computingUDF _ =>
      { h with worker := worker, failed := Function.update h.failed thread (!ok) }
  | .taskCompleted _ =>
      if h.failed thread then
        { h with worker := worker, unfinished := h.unfinished ++ moved h.worker worker }
      else { h with worker := worker, finished := h.finished ++ moved h.worker worker }
  | .tasksSize | .getIdleTask => { h with worker := worker }

def workerStep (h : WorkerHistory) (a : Worker.Action × Bool) : Option WorkerHistory :=
  (Worker.step pb h.worker a.1).map fun worker =>
    match a.1 with
    | .computing thread _ _ => h.note worker thread a.2 (h.worker.computing thread)
    | _ => { h with worker := worker }

def workerInitial (settings : Settings) (workerSockaddr : Str) : WorkerHistory where
  worker := Worker.initial settings workerSockaddr

/-- The tasks that are completed, written into a report, or reported. -/
def results (s : Worker.State) : List FdcsTask :=
  s.env.completedTasks ++ s.written ++ Worker.reported pb s.sent

/-- No task has been completed after a failure, and none is reported. -/
def WorkerKeeps (h : WorkerHistory) : Prop :=
  h.unfinished = [] ∧ results pb h.worker ⊆ h.finished

/-- The task that a thread has failed to compute is no longer in the table when
the thread completes it. -/
def CompletesNothing (h : WorkerHistory) (thread : Nat) : Worker.ComputingCall → Prop
  | .taskCompleted taskId => h.failed thread = true → h.worker.env.findTask taskId = none
  | _ => True

instance (h : WorkerHistory) (thread : Nat) : ∀ call, Decidable (CompletesNothing h thread call)
  | .taskCompleted _ => inferInstanceAs (Decidable (_ → _))
  | .tasksSize | .getIdleTask | .computingUDF _ => isTrue trivial

def WorkerAllowed (h : WorkerHistory) : Worker.Action × Bool → Prop
  | (.computing thread _ _, _) => CompletesNothing h thread (h.worker.computing thread)
  | _ => True

instance (h : WorkerHistory) : ∀ a, Decidable (WorkerAllowed h a)
  | (.computing thread _ _, _) => inferInstanceAs (Decidable (CompletesNothing h thread _))
  | (.heartBeat _ _, _) | (.receive _ _, _) | (.socket, _) | (.socketClose _ _ _, _) =>
      isTrue trivial

variable {pb}
variable {h h' : WorkerHistory} {s t : Worker.State}

theorem results_subset_of_node (pb : Protobuf) {node : Tracker.Node}
    (hnode : node.fdcsEnv.completedTasks = s.env.completedTasks) :
    results pb { s with node := node } ⊆ results pb s := by
  have hsame : results pb { s with node := node } = results pb s := by
    simp only [results, Worker.State.env, hnode]
  rw [hsame]
  exact List.Subset.refl _

/-- The heart beat thread reports what was completed. -/
theorem results_subset_heartBeatStep {around : Tracker.Surroundings} {ownerMaster : Option Str}
    (hstep : Worker.heartBeatStep pb around ownerMaster s = some t) :
    results pb t ⊆ results pb s := by
  cases hcall : s.heartBeat with
  | idle =>
      simp only [Worker.heartBeatStep, hcall] at hstep
      split_ifs at hstep
      · obtain rfl := Option.some.inj hstep
        exact List.Subset.refl _
      · obtain rfl := Option.some.inj hstep
        exact List.Subset.refl _
      · obtain ⟨⟨a, u⟩, hafter, rfl⟩ := Option.map_eq_some_iff.mp hstep
        obtain ⟨node, rfl, hnode⟩ := Worker.eq_of_after Worker.leavesResults_askTracker hafter
        exact results_subset_of_node pb hnode
  | findOwnerMaster =>
      simp only [Worker.heartBeatStep, hcall] at hstep
      obtain ⟨⟨masterFd, u⟩, hafter, rfl⟩ := Option.map_eq_some_iff.mp hstep
      obtain ⟨node, rfl, hnode⟩ :=
        Worker.eq_of_after (Worker.leavesResults_findOwnerMaster ownerMaster) hafter
      have hsame := results_subset_of_node pb hnode
      dsimp only
      split_ifs
      · exact hsame
      · refine List.Subset.trans ?_ hsame
        simp only [results, List.append_nil, List.append_assoc]
        exact List.append_subset.mpr ⟨List.subset_append_left _ _, List.Subset.trans
          (List.subset_append_right _ _) (List.subset_append_right _ _)⟩
  | completedTasksSize masterFd i =>
      simp only [Worker.heartBeatStep, hcall] at hstep
      split_ifs at hstep
      · obtain rfl := Option.some.inj hstep
        exact List.Subset.refl _
      · obtain rfl := Option.some.inj hstep
        exact List.Subset.refl _
  | completedTasks masterFd i =>
      simp only [Worker.heartBeatStep, hcall] at hstep
      obtain ⟨task, htask, rfl⟩ := Option.map_eq_some_iff.mp hstep
      have hmem := List.mem_of_getElem? htask
      intro other hother
      simp only [results, Worker.State.env, List.mem_append, List.mem_singleton] at hother hmem ⊢
      rcases hother with (hother | hother | rfl) | hother
      · exact Or.inl (Or.inl hother)
      · exact Or.inl (Or.inr hother)
      · exact Or.inl (Or.inl hmem)
      · exact Or.inr hother
  | clearCompletedTasks masterFd =>
      simp only [Worker.heartBeatStep, hcall] at hstep
      obtain rfl := Option.some.inj hstep
      simp only [results, List.append_assoc]
      exact List.subset_append_right _ _
  | sendProtocol masterFd =>
      simp only [Worker.heartBeatStep, hcall, Worker.after_sendProtocol] at hstep
      obtain ⟨requestArgs, _, hsent⟩ := Option.bind_eq_some_iff.mp hstep
      rcases em (masterFd ∈ s.node.sendBuffers) with hfd | hfd
      · simp only [hfd] at hsent
        obtain rfl := Option.some.inj hsent
        have hreports : tasksUnder pb keyValuePairsTaskComplete
            (Worker.requestTaskProto pb s.node requestArgs s.written) = s.written :=
          tasksUnder_writeTasks rfl
        intro other hother
        simp only [results, Worker.reported_append, hreports, List.mem_append] at hother ⊢
        rcases hother with (hother | hother) | hother | hother
        · exact Or.inl (Or.inl hother)
        · exact Or.inl (Or.inr hother)
        · exact Or.inr hother
        · exact Or.inl (Or.inr hother)
      · simp only [hfd] at hsent
        obtain rfl := Option.some.inj hsent
        exact List.Subset.refl _

/-- The call that completes a task moves the task it finds. -/
theorem moved_taskCompleted (pb : Protobuf) {thread : Nat} {taskId : Str}
    (hcall : s.computing thread = .taskCompleted taskId) (now : Int)
    (result : FdcsTask → FdcsTask) :
    moved s (Worker.computingStep thread now result s) = (s.env.findTask taskId).toList ∧
      results pb (Worker.computingStep thread now result s) ⊆
        results pb s ++ moved s (Worker.computingStep thread now result s) := by
  simp only [Worker.computingStep, hcall]
  cases hfind : s.env.findTask taskId with
  | none =>
      have henv := Enviroment.taskCompleted_of_none hfind
      rw [henv]
      exact ⟨List.drop_length, List.subset_append_left _ _⟩
  | some task =>
      have henv := Enviroment.taskCompleted_of_some hfind
      have hmoved : moved s
          { s.setEnv (s.env.taskCompleted taskId) with
            computing := Function.update s.computing thread .tasksSize } = [task] := by
        rw [moved]
        exact (congrArg (fun env => List.drop _ env.completedTasks) henv).trans List.drop_left
      refine ⟨hmoved, ?_⟩
      rw [hmoved]
      intro other hother
      change other ∈ (s.env.taskCompleted taskId).completedTasks ++ s.written ++
        Worker.reported pb s.sent at hother
      rw [henv] at hother
      simp only [results, List.mem_append] at hother ⊢
      tauto

/-- Only a thread that completes a task makes a result. -/
theorem results_subset_step {a : Worker.Action} (hstep : Worker.step pb s a = some t)
    (hother : ∀ thread now result taskId, a = .computing thread now result →
      s.computing thread ≠ .taskCompleted taskId) : results pb t ⊆ results pb s := by
  cases a with
  | heartBeat around ownerMaster => exact results_subset_heartBeatStep hstep
  | receive around proto =>
      simp only [Worker.step] at hstep
      split at hstep
      · obtain rfl := Option.some.inj hstep
        exact List.Subset.refl _
      · obtain ⟨⟨a, u⟩, hafter, rfl⟩ := Option.map_eq_some_iff.mp hstep
        obtain ⟨node, rfl, hnode⟩ :=
          Worker.eq_of_after (Worker.leavesResults_processAskTracker pb proto) hafter
        exact results_subset_of_node pb hnode
      · obtain rfl := Option.some.inj hstep
        exact List.Subset.refl _
      · cases hstep
  | socket =>
      simp only [Worker.step, Worker.socketStep] at hstep
      split at hstep
      · cases hstep
      · split_ifs at hstep
        · obtain rfl := Option.some.inj hstep
          exact List.Subset.refl _
        · obtain rfl := Option.some.inj hstep
          exact List.Subset.refl _
      · obtain rfl := Option.some.inj hstep
        simp only [results, List.append_assoc]
        exact List.subset_append_right _ _
  | computing thread now result =>
      obtain rfl := Option.some.inj hstep
      obtain ⟨env, computing, heq, hkept | ⟨taskId, task, hcall, _⟩⟩ :=
        Worker.computingStep_cases thread now result s
      · rw [heq]
        let node : Tracker.Node := { s.node with fdcsEnv := env }
        have hnode : node.fdcsEnv.completedTasks = s.env.completedTasks := hkept
        exact results_subset_of_node pb hnode
      · exact absurd hcall (hother thread now result taskId rfl)
  | socketClose around socketFd guestAddr =>
      obtain ⟨⟨a, u⟩, hafter, rfl⟩ := Option.map_eq_some_iff.mp hstep
      obtain ⟨node, rfl, hnode⟩ :=
        Worker.eq_of_after (Worker.leavesResults_socketClose socketFd guestAddr) hafter
      exact results_subset_of_node pb hnode

/-- Every result was completed by a thread. -/
def Sourced (pb : Protobuf) (h : WorkerHistory) : Prop :=
  results pb h.worker ⊆ h.finished ++ h.unfinished

theorem workerKeeps_iff (hsourced : Sourced pb h) : WorkerKeeps pb h ↔ h.unfinished = [] := by
  constructor
  · intro hkeeps
    exact hkeeps.1
  · intro hnone
    rw [Sourced, hnone, List.append_nil] at hsourced
    exact ⟨hnone, hsourced⟩

theorem sourced_step {a : Worker.Action × Bool} (hsourced : Sourced pb h)
    (hstep : workerStep pb h a = some h') : Sourced pb h' := by
  obtain ⟨a, ok⟩ := a
  obtain ⟨worker, hworker, rfl⟩ := Option.map_eq_some_iff.mp hstep
  have hquiet : (∀ thread now result taskId, a = .computing thread now result →
      h.worker.computing thread ≠ .taskCompleted taskId) →
        results pb worker ⊆ h.finished ++ h.unfinished := fun hother =>
    List.Subset.trans (results_subset_step hworker hother) hsourced
  cases a with
  | computing thread now result =>
      have hnone : (∀ taskId, h.worker.computing thread ≠ .taskCompleted taskId) →
          results pb worker ⊆ h.finished ++ h.unfinished := by
        intro hcall
        refine hquiet ?_
        rintro _ _ _ taskId ⟨⟩
        exact hcall taskId
      dsimp only
      cases hcall : h.worker.computing thread with
      | tasksSize => exact hnone (by simp [hcall])
      | getIdleTask => exact hnone (by simp [hcall])
      | computingUDF taskId => exact hnone (by simp [hcall])
      | taskCompleted taskId =>
          obtain ⟨_, hresults⟩ := moved_taskCompleted pb hcall now result
          obtain rfl := Option.some.inj hworker
          have hall := List.Subset.trans hresults
            (List.append_subset.mpr ⟨List.Subset.trans hsourced (List.subset_append_left _ _),
              List.subset_append_right (h.finished ++ h.unfinished) _⟩)
          rw [WorkerHistory.note]
          split_ifs
          · rw [List.append_assoc] at hall
            exact hall
          · intro task htask
            have hmem := hall htask
            simp only [List.mem_append] at hmem ⊢
            tauto
  | heartBeat around ownerMaster => exact hquiet (by simp)
  | receive around proto => exact hquiet (by simp)
  | socket => exact hquiet (by simp)
  | socketClose around socketFd guestAddr => exact hquiet (by simp)

theorem unfinished_step_iff {a : Worker.Action × Bool} (hnone : h.unfinished = [])
    (hstep : workerStep pb h a = some h') : h'.unfinished = [] ↔ WorkerAllowed h a := by
  obtain ⟨a, ok⟩ := a
  obtain ⟨worker, hworker, rfl⟩ := Option.map_eq_some_iff.mp hstep
  cases a with
  | computing thread now result =>
      rw [WorkerAllowed]
      dsimp only
      cases hcall : h.worker.computing thread with
      | tasksSize => exact iff_of_true hnone trivial
      | getIdleTask => exact iff_of_true hnone trivial
      | computingUDF taskId => exact iff_of_true hnone trivial
      | taskCompleted taskId =>
          obtain ⟨hmoved, _⟩ := moved_taskCompleted pb hcall now result
          obtain rfl := Option.some.inj hworker
          rw [WorkerHistory.note, CompletesNothing, hmoved]
          cases hfailed : h.failed thread with
          | true =>
              rw [if_pos rfl, hnone]
              simp
          | false =>
              rw [if_neg Bool.false_ne_true]
              exact iff_of_true hnone (by simp)
  | heartBeat around ownerMaster => exact iff_of_true hnone trivial
  | receive around proto => exact iff_of_true hnone trivial
  | socket => exact iff_of_true hnone trivial
  | socketClose around socketFd guestAddr => exact iff_of_true hnone trivial

theorem workerKeeps_throughout_iff {settings : Settings} {workerSockaddr : Str}
    {as : List (Worker.Action × Bool)}
    (hrun : run (workerStep pb) (workerInitial settings workerSockaddr) as = some h) :
    Throughout (workerStep pb) (WorkerKeeps pb) (workerInitial settings workerSockaddr) as ↔
      Along (workerStep pb) WorkerAllowed (workerInitial settings workerSockaddr) as := by
  have hstep : ∀ h a h', WorkerKeeps pb h → Sourced pb h → workerStep pb h a = some h' →
      (WorkerKeeps pb h' ↔ WorkerAllowed h a) ∧ Sourced pb h' := by
    intro h a h' hkeeps hsourced hstep
    have hsourced' := sourced_step hsourced hstep
    refine ⟨?_, hsourced'⟩
    rw [workerKeeps_iff hsourced']
    exact unfinished_step_iff hkeeps.1 hstep
  exact throughout_iff_along hstep ⟨rfl, List.nil_subset _⟩ (List.nil_subset _) hrun

end Computing

section Examples

/-- What the base classes are: every user function returns false and does
nothing. -/
def plainMasterActions : List (TaskExchange.Action × Bool) :=
  List.replicate 17 (.exchange 1 [], false)

/-- One task with the given values of `ComputingUDF`. -/
def oneTaskActions (ok : Bool) : List (Worker.Action × Bool) :=
  (Worker.oneTaskRun []).map fun a => (a, ok)

/-- An import and an export that fail with the one task they have. -/
def failingMasterActions : List (TaskExchange.Action × Bool) :=
  (TaskExchange.oneTaskRun 1).map fun a => (a, false)

end Examples

/-- A false value of a user function leaves the tasks alone throughout a run of a
master exactly if a failed export has nothing to clear and a failed import leaves
only tasks that are in the table, and throughout a run of a worker exactly if a
task that could not be computed is no longer in the table when it is completed. -/
theorem failures_respected_iff {settings workerSettings : Settings}
    {workerSockaddr : Str}
    {masterActions : List (TaskExchange.Action × Bool)}
    {workerActions : List (Worker.Action × Bool)} {m : MasterHistory} {w : WorkerHistory}
    (hmaster : run (masterStep pb) (masterInitial settings) masterActions = some m)
    (hworker : run (workerStep pb) (workerInitial workerSettings workerSockaddr) workerActions =
      some w) :
    (Throughout (masterStep pb) MasterKeeps (masterInitial settings) masterActions ↔
        Along (masterStep pb) MasterAllowed (masterInitial settings) masterActions) ∧
      (Throughout (workerStep pb) (WorkerKeeps pb) (workerInitial workerSettings workerSockaddr)
          workerActions ↔
        Along (workerStep pb) WorkerAllowed (workerInitial workerSettings workerSockaddr)
          workerActions) :=
  ⟨masterKeeps_throughout_iff hmaster, workerKeeps_throughout_iff hworker⟩

theorem plain_failures_respected :
    Throughout (masterStep plainProtobuf) MasterKeeps
        (masterInitial TaskExchange.oneTaskSettings) plainMasterActions ∧
      Throughout (workerStep plainProtobuf) (WorkerKeeps plainProtobuf)
        (workerInitial Worker.aloneSettings ['w']) (oneTaskActions true) := by
  have hmaster : (run (masterStep plainProtobuf)
      (masterInitial TaskExchange.oneTaskSettings) plainMasterActions).isSome = true := by
    decide +kernel
  have hworker : (run (workerStep plainProtobuf)
      (workerInitial Worker.aloneSettings ['w']) (oneTaskActions true)).isSome = true := by
    decide +kernel
  obtain ⟨m, hm⟩ := Option.isSome_iff_exists.mp hmaster
  obtain ⟨w, hw⟩ := Option.isSome_iff_exists.mp hworker
  obtain ⟨hmasterIff, hworkerIff⟩ := failures_respected_iff plainProtobuf hm hw
  exact ⟨hmasterIff.mpr (by decide +kernel), hworkerIff.mpr (by decide +kernel)⟩

/-- A failed import fills the table, a failed export clears the list, and a task
that could not be computed is reported. -/
theorem failures_not_respected :
    (∃ m, run (masterStep plainProtobuf) (masterInitial TaskExchange.oneTaskSettings)
        failingMasterActions = some m ∧
      ¬Throughout (masterStep plainProtobuf) MasterKeeps
        (masterInitial TaskExchange.oneTaskSettings) failingMasterActions) ∧
      ∃ w, run (workerStep plainProtobuf) (workerInitial Worker.aloneSettings ['w'])
          (oneTaskActions false) = some w ∧
        ¬Throughout (workerStep plainProtobuf) (WorkerKeeps plainProtobuf)
          (workerInitial Worker.aloneSettings ['w']) (oneTaskActions false) := by
  have hmaster : (run (masterStep plainProtobuf)
      (masterInitial TaskExchange.oneTaskSettings) failingMasterActions).isSome = true := by
    decide +kernel
  have hworker : (run (workerStep plainProtobuf)
      (workerInitial Worker.aloneSettings ['w']) (oneTaskActions false)).isSome = true := by
    decide +kernel
  obtain ⟨m, hm⟩ := Option.isSome_iff_exists.mp hmaster
  obtain ⟨w, hw⟩ := Option.isSome_iff_exists.mp hworker
  refine ⟨⟨m, hm, ?_⟩, w, hw, ?_⟩
  · rw [masterKeeps_throughout_iff hm]
    decide +kernel
  · rw [workerKeeps_throughout_iff hw]
    decide +kernel

end FastDCS.UserFunctions
