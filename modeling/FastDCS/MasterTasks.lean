import FastDCS.Enviroment

/-!
The task functions of `master.cc` on the `Enviroment` of a master: accepting
reported results, handing out idle tasks and saving a duplicate.
-/

namespace FastDCS.MasterTasks

open FastDCS.Strings
open FastDCS.Messages

variable (pb : Protobuf)

section Completing

def completeTask (now : Int) (env : Enviroment) (report : FdcsTask) : Enviroment :=
  match env.findTask report.taskId with
  | none => env
  | some envTask =>
      if envTask.lease < env.fdcsTime now then env
      else
        (env.modifyTask report.taskId fun _ => report.clearLeaseTime).taskCompleted report.taskId

def taskCompleted (env : Enviroment) (now : Int) (proto : TrackerProtocol) : Bool × Enviroment :=
  let completedTasks := tasksUnder pb keyValuePairsTaskComplete proto
  if completedTasks.isEmpty then (false, env)
  else (true, completedTasks.foldl (completeTask now) env)

/-- The table has the task and its lease has not ended. -/
def Accepts (now : Int) (env : Enviroment) (taskId : Str) : Prop :=
  ∃ task, env.tasks.find? taskId = some task ∧ env.fdcsTime now ≤ task.lease

instance (now : Int) (env : Enviroment) (taskId : Str) : Decidable (Accepts now env taskId) :=
  match h : env.tasks.find? taskId with
  | none => isFalse fun ⟨task, htask, _⟩ => by simp [h] at htask
  | some task =>
      decidable_of_iff (env.fdcsTime now ≤ task.lease) <| by simp [Accepts, h]

/-- The reports of a batch that the loop copies into the table and completes. -/
def acceptedReports (now : Int) : Enviroment → List FdcsTask → List FdcsTask
  | _, [] => []
  | env, report :: rest =>
      if Accepts now env report.taskId then
        report :: acceptedReports now (completeTask now env report) rest
      else acceptedReports now env rest

variable {now : Int} {env : Enviroment}

theorem completeTask_of_not_accepts {report : FdcsTask} (h : ¬Accepts now env report.taskId) :
    completeTask now env report = env := by
  rw [completeTask, Enviroment.findTask]
  cases hfind : env.tasks.find? report.taskId with
  | none => rfl
  | some task =>
      have hlt : task.lease < env.fdcsTime now :=
        not_le.mp fun hle => h ⟨task, hfind, hle⟩
      exact if_pos hlt

theorem completeTask_of_accepts {report : FdcsTask} (h : Accepts now env report.taskId) :
    completeTask now env report =
      { env with
        tasks := (env.tasks.modify report.taskId fun _ => report.clearLeaseTime).erase
          report.taskId
        completedTasks := env.completedTasks ++ [report.clearLeaseTime] } := by
  obtain ⟨task, hfind, hle⟩ := h
  rw [completeTask, Enviroment.findTask, hfind]
  have hmodified : (env.modifyTask report.taskId fun _ => report.clearLeaseTime).tasks.find?
      report.taskId = some report.clearLeaseTime := by
    simp [Enviroment.modifyTask, OrderedMap.find?_modify, hfind]
  simp only [if_neg (not_lt.mpr hle), Enviroment.taskCompleted_of_some hmodified]
  rfl

@[simp] theorem settings_completeTask (report : FdcsTask) :
    (completeTask now env report).settings = env.settings := by
  by_cases h : Accepts now env report.taskId
  · rw [completeTask_of_accepts h]
  · rw [completeTask_of_not_accepts h]

@[simp] theorem fdcsTimeDiffer_completeTask (report : FdcsTask) :
    (completeTask now env report).fdcsTimeDiffer = env.fdcsTimeDiffer := by
  by_cases h : Accepts now env report.taskId
  · rw [completeTask_of_accepts h]
  · rw [completeTask_of_not_accepts h]

theorem find?_completeTask (report : FdcsTask) (taskId : Str) :
    (completeTask now env report).tasks.find? taskId =
      if Accepts now env report.taskId ∧ taskId = report.taskId then none
      else env.tasks.find? taskId := by
  by_cases h : Accepts now env report.taskId
  · rw [completeTask_of_accepts h, OrderedMap.find?_erase, OrderedMap.find?_modify]
    rcases eq_or_ne taskId report.taskId with rfl | hne
    · simp [h]
    · simp [hne]
  · rw [completeTask_of_not_accepts h, if_neg fun hand => h hand.1]

theorem accepts_completeTask_iff {report : FdcsTask} (h : Accepts now env report.taskId)
    (taskId : Str) :
    Accepts now (completeTask now env report) taskId ↔
      Accepts now env taskId ∧ taskId ≠ report.taskId := by
  rcases eq_or_ne taskId report.taskId with rfl | hne
  · constructor
    · rintro ⟨task, htask, _⟩
      rw [find?_completeTask, if_pos ⟨h, rfl⟩] at htask
      cases htask
    · exact fun hand => absurd rfl hand.2
  · simp [Accepts, find?_completeTask, Enviroment.fdcsTime, hne]

/-- The ids accepted from a batch are those reported in it that the table
accepts before the batch. -/
theorem mem_acceptedReports_ids {reports : List FdcsTask} {taskId : Str} :
    taskId ∈ (acceptedReports now env reports).map FdcsTask.taskId ↔
      taskId ∈ reports.map FdcsTask.taskId ∧ Accepts now env taskId := by
  induction reports generalizing env with
  | nil => simp [acceptedReports]
  | cons first rest ih =>
      rw [acceptedReports]
      split_ifs with hacc
      · rw [List.map_cons, List.map_cons, List.mem_cons, List.mem_cons, ih,
          accepts_completeTask_iff hacc]
        rcases eq_or_ne taskId first.taskId with rfl | hne
        · simp [hacc]
        · simp [hne]
      · rw [ih, List.map_cons, List.mem_cons]
        constructor
        · exact fun h => ⟨Or.inr h.1, h.2⟩
        · rintro ⟨rfl | hmem, haccepts⟩
          · exact absurd haccepts hacc
          · exact ⟨hmem, haccepts⟩

theorem acceptedReports_ids_nodup (reports : List FdcsTask) :
    ((acceptedReports now env reports).map FdcsTask.taskId).Nodup := by
  induction reports generalizing env with
  | nil => simp [acceptedReports]
  | cons first rest ih =>
      rw [acceptedReports]
      split_ifs with hacc
      · refine List.nodup_cons.mpr ⟨?_, ih⟩
        rw [mem_acceptedReports_ids, accepts_completeTask_iff hacc]
        exact fun h => h.2.2 rfl
      · exact ih

@[simp] theorem settings_foldl_completeTask (reports : List FdcsTask) :
    (reports.foldl (completeTask now) env).settings = env.settings := by
  induction reports generalizing env with
  | nil => rfl
  | cons report rest ih => rw [List.foldl_cons, ih, settings_completeTask]

@[simp] theorem fdcsTimeDiffer_foldl_completeTask (reports : List FdcsTask) :
    (reports.foldl (completeTask now) env).fdcsTimeDiffer = env.fdcsTimeDiffer := by
  induction reports generalizing env with
  | nil => rfl
  | cons report rest ih => rw [List.foldl_cons, ih, fdcsTimeDiffer_completeTask]

theorem completedTasks_foldl_completeTask (reports : List FdcsTask) :
    (reports.foldl (completeTask now) env).completedTasks =
      env.completedTasks ++ (acceptedReports now env reports).map FdcsTask.clearLeaseTime := by
  induction reports generalizing env with
  | nil => simp [acceptedReports]
  | cons report rest ih =>
      rw [List.foldl_cons, ih, acceptedReports]
      split_ifs with hacc
      · rw [completeTask_of_accepts hacc]
        simp
      · rw [completeTask_of_not_accepts hacc]

theorem taskCompleted_snd (proto : TrackerProtocol) :
    (taskCompleted pb env now proto).2 =
      (tasksUnder pb keyValuePairsTaskComplete proto).foldl (completeTask now) env := by
  rw [taskCompleted]
  split_ifs with h
  · rw [List.isEmpty_iff.mp h]
    rfl
  · rfl

end Completing

section HandingOut

/-- `Master::GetIdleTask`. The loop state is what is left of `task_duplicate`,
the records written and the value the function returns. -/
def getIdleTask (isPrimary : Bool) (uninitialised : Int) (env : Enviroment) (now : Int)
    (proto : TrackerProtocol) : Bool × TrackerProtocol × Enviroment :=
  if proto.forwardingSockFd > 0 ∧ isPrimary then (true, proto, env)
  else
    let taskDuplicate := keyToInt32 uninitialised proto.requestArgs
    let fdcsTime := env.fdcsTime now
    let result := env.tasks.walk
      (fun s envTask =>
        if envTask.lease < fdcsTime then
          ((s.1 - 1, writeTask pb s.2.1 envTask.clearLeaseTime, decide (s.1 - 1 ≤ 0)),
            envTask.setLeaseTime (fdcsTime + env.settings.leaseTimeout), decide (0 < s.1 - 1))
        else (s, envTask, true))
      (taskDuplicate, ({ key := keyValuePairsTask } : KeyValuesPair), false)
    (result.1.2.2, { proto with keyValuesPairs := [result.1.2.1] }, { env with tasks := result.2 })

/-- `SendTaskDuplicate` of a primary: the message it sends, if it sends one. -/
def sendTaskDuplicate (env : Enviroment) (now : Int) (proto : TrackerProtocol) :
    Option TrackerProtocol × Enviroment :=
  if 0 < env.idleTasksSize now then
    let leased := env.leaseTasks now []
    let pairs := leased.1.foldl (writeTask pb) { key := keyValuePairsTask }
    if 0 < leased.1.length then (some { proto with keyValuesPairs := [pairs] }, leased.2)
    else (none, leased.2)
  else (none, env)

def saveTaskDuplicate (env : Enviroment) (proto : TrackerProtocol) : Enviroment :=
  proto.keyValuesPairs.foldl
    (fun env pairs =>
      if pairs.key ≠ keyValuePairsTask then env else env.updateTasks (readTasks pb pairs))
    env

/-- The tasks a lease loop with the given quota takes, and the table it leaves. -/
def leaseFirst (env : Enviroment) (now : Int) (quota : Nat) : List FdcsTask × Enviroment :=
  let sel := env.tasks.updateFirst (env.isIdle now) (env.leased now) quota
  (sel.1, { env with tasks := sel.2 })

variable {env : Enviroment} {now : Int}

theorem keyed_leaseFirst {quota : Nat} (h : env.Keyed) : (leaseFirst env now quota).2.Keyed := by
  intro taskId task hfind
  rcases OrderedMap.find?_updateFirst hfind with hold | ⟨old, hold, _, rfl, _⟩
  · exact h taskId task hold
  · exact h taskId old hold

/-- The loop body of `GetIdleTask`. -/
def idleTaskBody (env : Enviroment) (now : Int) (s : Int × KeyValuesPair × Bool)
    (envTask : FdcsTask) : (Int × KeyValuesPair × Bool) × FdcsTask × Bool :=
  if envTask.lease < env.fdcsTime now then
    ((s.1 - 1, writeTask pb s.2.1 envTask.clearLeaseTime, decide (s.1 - 1 ≤ 0)),
      envTask.setLeaseTime (env.fdcsTime now + env.settings.leaseTimeout), decide (0 < s.1 - 1))
  else (s, envTask, true)

theorem key_walk_idleTaskBody (env : Enviroment) (now : Int) (s : Int × KeyValuesPair × Bool) :
    (env.tasks.walk (idleTaskBody pb env now) s).1.2.1.key = s.2.1.key := by
  refine OrderedMap.walkList_frame (r := fun s => s.2.1.key) ?_ s env.tasks.entries
  intro s task
  simp only [idleTaskBody]
  split_ifs <;> rfl

/-- The loop of `GetIdleTask` looks at the number behind a task, so that it takes one. -/
theorem idleTaskBody_changesFirst (pb : Protobuf) (env : Enviroment) (now : Int) :
    OrderedMap.ChangesFirst (idleTaskBody pb env now) (env.isIdle now) (env.leased now)
      (fun task => pb.serializeTask task.clearLeaseTime) (fun s => max 1 s.1.toNat)
      (fun s => s.2.1.value) where
  skips s task hp := by
    have hle : ¬task.lease < env.fdcsTime now := by simpa [Enviroment.isIdle] using hp
    exact if_neg hle
  stops s task hp hq := by omega
  changes s task q hp hq := by
    have hlt : task.lease < env.fdcsTime now := Enviroment.isIdle_eq_true.mp hp
    simp only [idleTaskBody, if_pos hlt]
    refine ⟨rfl, rfl, ?_, ?_⟩
    · intro hmore
      have := of_decide_eq_true hmore
      omega
    · intro hlast
      have := of_decide_eq_false hlast
      omega

/-- Outside its shortcut `GetIdleTask` hands out at least one task if it can. -/
theorem getIdleTask_of_not_shortcut {isPrimary : Bool} {uninitialised : Int}
    {proto : TrackerProtocol} (h : ¬(proto.forwardingSockFd > 0 ∧ isPrimary = true)) :
    (getIdleTask pb isPrimary uninitialised env now proto).2 =
      let out := leaseFirst env now (max 1 (keyToInt32 uninitialised proto.requestArgs).toNat)
      ({ proto with
          keyValuesPairs :=
            [writeTasks pb keyValuePairsTask (out.1.map FdcsTask.clearLeaseTime)] },
        out.2) := by
  let start : Int × KeyValuesPair × Bool :=
    (keyToInt32 uninitialised proto.requestArgs, { key := keyValuePairsTask }, false)
  have hloop := (idleTaskBody_changesFirst pb env now).walk start env.tasks
  have hkey := key_walk_idleTaskBody pb env now start
  have hpairs : (env.tasks.walk (idleTaskBody pb env now) start).1.2.1 =
      writeTasks pb keyValuePairsTask
        ((leaseFirst env now (max 1 start.1.toNat)).1.map FdcsTask.clearLeaseTime) := by
    rw [writeTasks, foldl_writeTask, ← hkey]
    have hvalue := hloop.2
    simp only [start, List.nil_append] at hvalue
    simp [leaseFirst, Function.comp_def, start, ← hvalue]
  rw [getIdleTask, if_neg h]
  refine Prod.ext ?_ ?_
  · exact congrArg (fun pairs => { proto with keyValuesPairs := [pairs] }) hpairs
  · exact congrArg (fun m => { env with tasks := m }) hloop.1

theorem leaseTasks_eq_leaseFirst (tasks : List FdcsTask) :
    env.leaseTasks now tasks =
      let out := leaseFirst env now env.settings.taskDuplicate.toNat
      (tasks ++ out.1.map FdcsTask.clearLeaseTime, out.2) :=
  Enviroment.leaseTasks_eq_updateFirst tasks

theorem getIdleTask_env (env : Enviroment) (now : Int) (isPrimary : Bool) (uninitialised : Int)
    (proto : TrackerProtocol) :
    ∃ quota, (getIdleTask pb isPrimary uninitialised env now proto).2.2 =
      (leaseFirst env now quota).2 := by
  rcases em (proto.forwardingSockFd > 0 ∧ isPrimary = true) with h | h
  · refine ⟨0, ?_⟩
    rw [getIdleTask, if_pos h]
    simp [leaseFirst, OrderedMap.updateFirst, OrderedMap.updateFirstList]
  · exact ⟨_, congrArg Prod.snd (getIdleTask_of_not_shortcut pb h)⟩

theorem sendTaskDuplicate_spec (env : Enviroment) (now : Int) (proto : TrackerProtocol) :
    ∃ quota, (sendTaskDuplicate pb env now proto).2 = (leaseFirst env now quota).2 ∧
      match (sendTaskDuplicate pb env now proto).1 with
      | some duplicate =>
          duplicate.keyValuesPairs =
            [writeTasks pb keyValuePairsTask
              ((leaseFirst env now quota).1.map FdcsTask.clearLeaseTime)]
      | none => (leaseFirst env now quota).1 = [] := by
  have hlease : env.leaseTasks now [] = _ := leaseTasks_eq_leaseFirst []
  rw [sendTaskDuplicate]
  split_ifs
  · refine ⟨env.settings.taskDuplicate.toNat, ?_⟩
    simp only [hlease, List.nil_append, List.length_map]
    split_ifs with hsome
    · exact ⟨rfl, rfl⟩
    · exact ⟨rfl, List.length_eq_zero_iff.mp (Nat.eq_zero_of_not_pos hsome)⟩
  · refine ⟨0, ?_⟩
    simp [leaseFirst, OrderedMap.updateFirst, OrderedMap.updateFirstList]

theorem sendTaskDuplicate_env (env : Enviroment) (now : Int) (proto : TrackerProtocol) :
    ∃ quota, (sendTaskDuplicate pb env now proto).2 = (leaseFirst env now quota).2 := by
  obtain ⟨quota, h, _⟩ := sendTaskDuplicate_spec pb env now proto
  exact ⟨quota, h⟩

theorem settings_saveTaskDuplicate (proto : TrackerProtocol) :
    (saveTaskDuplicate pb env proto).settings = env.settings := by
  rw [saveTaskDuplicate]
  induction proto.keyValuesPairs generalizing env with
  | nil => rfl
  | cons pairs rest ih =>
      rw [List.foldl_cons, ih]
      split_ifs <;> rfl

end HandingOut

end FastDCS.MasterTasks
