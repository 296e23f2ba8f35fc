import FastDCS.TaskExchange

/-!
How often one master passes the result of a task to `ExportTaskUDF`, whatever
its two threads do and whatever role it has.
-/

namespace FastDCS.ExportOnce

open FastDCS.Strings
open FastDCS.Messages
open FastDCS.MasterTasks
open FastDCS.TaskExchange

def ids (tasks : List FdcsTask) : List Str := tasks.map FdcsTask.taskId

section ExchangeThread

def adding (thread : Exchange) : List FdcsTask :=
  match thread.call with
  | .addTask rest => rest
  | _ => []

def exportedBy (thread : Exchange) : List FdcsTask :=
  match thread.call with
  | .exportTaskUDF => thread.tasks
  | _ => []

def importedBy (thread : Exchange) (imported : List FdcsTask) : List Str :=
  match thread.call with
  | .importTaskUDF => ids imported
  | _ => []

/-- What the thread has copied are the first of the completed tasks, and
`flushed` is what earlier turns have exported. Tasks that are completed while
the thread exports are cleared without having been copied. -/
def Copied (thread : Exchange) (completed flushed : List FdcsTask) : Prop :=
  match thread.call with
  | .completedTasksSize i | .completedTasks i =>
      thread.exported = flushed ∧ i ≤ completed.length ∧ thread.tasks = completed.take i
  | .exportTaskUDF => thread.exported = flushed ∧ thread.tasks <+: completed
  | .clearCompletedTasks =>
      ∃ copied, copied <+: completed ∧ thread.exported = flushed ++ copied
  | _ => thread.exported = flushed

variable {isPrimary : Bool} {now : Int} {imported : List FdcsTask} {env env' : Enviroment}
  {thread thread' : Exchange} {completed flushed : List FdcsTask}

theorem copied_append (h : Copied thread completed flushed) (task : FdcsTask) :
    Copied thread (completed ++ [task]) flushed := by
  obtain ⟨call, tasks, exported⟩ := thread
  have htake : ∀ i, i ≤ completed.length → tasks = completed.take i →
      i ≤ (completed ++ [task]).length ∧ tasks = (completed ++ [task]).take i := by
    intro i hi htasks
    rw [List.take_append_of_le_length hi, List.length_append]
    exact ⟨hi.trans (Nat.le_add_right _ _), htasks⟩
  cases call with
  | completedTasksSize i => exact ⟨h.1, htake i h.2.1 h.2.2⟩
  | completedTasks i => exact ⟨h.1, htake i h.2.1 h.2.2⟩
  | exportTaskUDF => exact ⟨h.1, h.2.trans (List.prefix_append _ _)⟩
  | clearCompletedTasks =>
      obtain ⟨copied, hcopied, hexported⟩ := h
      exact ⟨copied, hcopied.trans (List.prefix_append _ _), hexported⟩
  | _ => exact h

/-- A call of the thread flushes what it has exported, and no task twice. -/
theorem copied_exchangeStep (h : Copied thread env.completedTasks flushed)
    (hstep : exchangeStep isPrimary now imported env thread = some (env', thread')) :
    ∃ flushed', Copied thread' env'.completedTasks flushed' ∧
      List.Sublist (flushed' ++ env'.completedTasks) (flushed ++ env.completedTasks) := by
  obtain ⟨call, tasks, exported⟩ := thread
  have hkeep := List.Sublist.refl (flushed ++ env.completedTasks)
  cases call with
  | waitPrimary =>
      simp only [exchangeStep] at hstep
      split_ifs at hstep <;>
      · obtain ⟨rfl, rfl⟩ := Prod.mk.inj (Option.some.inj hstep)
        exact ⟨flushed, h, hkeep⟩
  | waitIdle =>
      simp only [exchangeStep] at hstep
      split_ifs at hstep <;> obtain ⟨rfl, rfl⟩ := Prod.mk.inj (Option.some.inj hstep)
      · exact ⟨flushed, h, hkeep⟩
      · exact ⟨flushed, ⟨h, Nat.zero_le _, rfl⟩, hkeep⟩
  | completedTasksSize i =>
      obtain ⟨hexported, hi, htasks⟩ := h
      simp only [exchangeStep] at hstep
      split_ifs at hstep <;> obtain ⟨rfl, rfl⟩ := Prod.mk.inj (Option.some.inj hstep)
      · exact ⟨flushed, ⟨hexported, hi, htasks⟩, hkeep⟩
      · change tasks = _ at htasks
        exact ⟨flushed, ⟨hexported, htasks ▸ List.take_prefix _ _⟩, hkeep⟩
  | completedTasks i =>
      obtain ⟨hexported, hi, htasks⟩ := h
      simp only [exchangeStep] at hstep
      split at hstep
      · cases hstep
      · rename_i task hget
        obtain ⟨hlt, hget⟩ := List.getElem?_eq_some_iff.mp hget
        obtain ⟨rfl, rfl⟩ := Prod.mk.inj (Option.some.inj hstep)
        refine ⟨flushed, ⟨hexported, hlt, ?_⟩, hkeep⟩
        change tasks = _ at htasks
        rw [htasks, ← hget, List.take_append_getElem hlt]
  | exportTaskUDF =>
      obtain ⟨rfl, rfl⟩ := Prod.mk.inj (Option.some.inj hstep)
      obtain ⟨hexported, htasks⟩ := h
      exact ⟨flushed, ⟨tasks, htasks, congrArg (· ++ tasks) hexported⟩, hkeep⟩
  | clearCompletedTasks =>
      obtain ⟨rfl, rfl⟩ := Prod.mk.inj (Option.some.inj hstep)
      obtain ⟨copied, hcopied, hexported⟩ := h
      refine ⟨flushed ++ copied, hexported, ?_⟩
      simpa [Enviroment.clearCompletedTasks] using hcopied.sublist
  | checkIdle =>
      simp only [exchangeStep] at hstep
      split_ifs at hstep <;>
      · obtain ⟨rfl, rfl⟩ := Prod.mk.inj (Option.some.inj hstep)
        exact ⟨flushed, h, hkeep⟩
  | importTaskUDF =>
      obtain ⟨rfl, rfl⟩ := Prod.mk.inj (Option.some.inj hstep)
      exact ⟨flushed, h, hkeep⟩
  | addTask rest =>
      cases rest with
      | nil =>
          obtain ⟨rfl, rfl⟩ := Prod.mk.inj (Option.some.inj hstep)
          exact ⟨flushed, h, hkeep⟩
      | cons task rest =>
          obtain ⟨rfl, rfl⟩ := Prod.mk.inj (Option.some.inj hstep)
          rw [completedTasks_addTask]
          exact ⟨flushed, h, hkeep⟩

/-- What a call adds to the exported tasks, and what it leaves to be added to
the table. -/
theorem exchangeStep_lists
    (hstep : exchangeStep isPrimary now imported env thread = some (env', thread')) :
    thread'.exported = thread.exported ++ exportedBy thread ∧
      ((importedBy thread imported = [] ∧ List.Sublist (adding thread') (adding thread)) ∨
        importedBy thread imported = ids imported ∧ adding thread' = imported ∧ env' = env) := by
  obtain ⟨call, tasks, exported⟩ := thread
  cases call with
  | addTask rest =>
      cases rest <;>
      · obtain ⟨rfl, rfl⟩ := Prod.mk.inj (Option.some.inj hstep)
        simp [exportedBy, importedBy, adding]
  | completedTasks i =>
      simp only [exchangeStep] at hstep
      split at hstep
      · cases hstep
      · obtain ⟨rfl, rfl⟩ := Prod.mk.inj (Option.some.inj hstep)
        simp [exportedBy, importedBy, adding]
  | clearCompletedTasks =>
      obtain ⟨rfl, rfl⟩ := Prod.mk.inj (Option.some.inj hstep)
      simp [exportedBy, importedBy, adding]
  | exportTaskUDF =>
      obtain ⟨rfl, rfl⟩ := Prod.mk.inj (Option.some.inj hstep)
      simp [exportedBy, importedBy, adding]
  | importTaskUDF =>
      obtain ⟨rfl, rfl⟩ := Prod.mk.inj (Option.some.inj hstep)
      simp [exportedBy, importedBy, adding]
  | _ =>
      simp only [exchangeStep] at hstep
      split_ifs at hstep <;>
      · obtain ⟨rfl, rfl⟩ := Prod.mk.inj (Option.some.inj hstep)
        simp [exportedBy, importedBy, adding]

end ExchangeThread

section Member

/-- A master knows only ids from `known`. No id is settled twice or settled and
in the table, and an id that is still to be added is neither. -/
structure Once (known : List Str) (flushed : List FdcsTask) (m : State) : Prop where
  copied : Copied m.exchange m.env.completedTasks flushed
  keyed : m.env.Keyed
  settledOnce : (ids (flushed ++ m.env.completedTasks)).Nodup
  addingOnce : (ids (adding m.exchange)).Nodup
  settled : ∀ taskId ∈ ids (flushed ++ m.env.completedTasks),
    taskId ∈ known ∧ m.env.tasks.find? taskId = none
  added : ∀ taskId ∈ ids (adding m.exchange), taskId ∈ known ∧
    m.env.tasks.find? taskId = none ∧ taskId ∉ ids (flushed ++ m.env.completedTasks)
  table : ∀ taskId task, m.env.tasks.find? taskId = some task → taskId ∈ known

variable {known : List Str} {flushed : List FdcsTask} {m m' : State}

theorem Once.mono {known' : List Str} (h : Once known flushed m) (hsub : known ⊆ known') :
    Once known' flushed m where
  copied := h.copied
  keyed := h.keyed
  settledOnce := h.settledOnce
  addingOnce := h.addingOnce
  settled taskId hmem := ⟨hsub (h.settled taskId hmem).1, (h.settled taskId hmem).2⟩
  added taskId hmem := ⟨hsub (h.added taskId hmem).1, (h.added taskId hmem).2⟩
  table taskId task hfind := hsub (h.table taskId task hfind)

theorem ids_sublist {xs ys : List FdcsTask} (h : List.Sublist xs ys) : ids xs ⊆ ids ys :=
  (h.map FdcsTask.taskId).subset

theorem once_of_tasks_eq (h : Once known flushed m) {known' : List Str} (hknown : known ⊆ known')
    {env : Enviroment} {thread : Exchange} {flushed' : List FdcsTask}
    (hcopied : Copied thread env.completedTasks flushed')
    (hsub : List.Sublist (flushed' ++ env.completedTasks) (flushed ++ m.env.completedTasks))
    (htasks : env.tasks = m.env.tasks) (honce : (ids (adding thread)).Nodup)
    (hadded : ∀ taskId ∈ ids (adding thread), taskId ∈ known' ∧
      m.env.tasks.find? taskId = none ∧ taskId ∉ ids (flushed ++ m.env.completedTasks)) :
    Once known' flushed' { m with env := env, exchange := thread } where
  copied := hcopied
  keyed := by
    intro taskId task hfind
    exact h.keyed taskId task (htasks ▸ hfind)
  settledOnce := (hsub.map FdcsTask.taskId).nodup h.settledOnce
  addingOnce := honce
  settled taskId hmem := by
    obtain ⟨hold, hnone⟩ := h.settled taskId (ids_sublist hsub hmem)
    rw [htasks]
    exact ⟨hknown hold, hnone⟩
  added taskId hmem := by
    obtain ⟨hnew, hnone, hnot⟩ := hadded taskId hmem
    rw [htasks]
    exact ⟨hnew, hnone, fun hsettled => hnot (ids_sublist hsub hsettled)⟩
  table taskId task hfind := hknown (h.table taskId task (htasks ▸ hfind))

theorem Once.absent_of_not_known (h : Once known flushed m) {taskId : Str}
    (hnew : taskId ∉ known) :
    m.env.tasks.find? taskId = none ∧ taskId ∉ ids (flushed ++ m.env.completedTasks) := by
  refine ⟨?_, fun hsettled => hnew (h.settled taskId hsettled).1⟩
  cases hfind : m.env.tasks.find? taskId with
  | none => rfl
  | some task => exact absurd (h.table taskId task hfind) hnew

theorem once_addTask (h : Once known flushed m) {task : FdcsTask} {rest : List FdcsTask}
    (hcall : m.exchange.call = .addTask (task :: rest)) :
    Once known flushed { m with
      env := (m.env.addTask task).2, exchange := { m.exchange with call := .addTask rest } } := by
  have hadding : adding m.exchange = task :: rest := by rw [adding, hcall]
  have haddingOnce := h.addingOnce
  rw [hadding, ids, List.map_cons, List.nodup_cons] at haddingOnce
  obtain ⟨hknown, hnone, hnot⟩ := h.added task.taskId (by rw [hadding]; exact List.mem_cons_self)
  have hfind : ∀ taskId, taskId ≠ task.taskId →
      (m.env.addTask task).2.tasks.find? taskId = m.env.tasks.find? taskId := by
    intro taskId hne
    rw [Enviroment.addTask_of_none hnone, OrderedMap.find?_insert, if_neg hne]
  have hcopied := h.copied
  refine ⟨?_, Enviroment.keyed_addTask h.keyed task, ?_, haddingOnce.2, ?_, ?_, ?_⟩
  · rw [completedTasks_addTask]
    simpa only [Copied, hcall] using hcopied
  · rw [completedTasks_addTask]
    exact h.settledOnce
  · intro taskId hmem
    rw [completedTasks_addTask] at hmem
    obtain ⟨hsettled, habsent⟩ := h.settled taskId hmem
    have hne : taskId ≠ task.taskId := fun heq => hnot (heq ▸ hmem)
    exact ⟨hsettled, (hfind taskId hne).trans habsent⟩
  · intro taskId hmem
    obtain ⟨hold, habsent, hunsettled⟩ := h.added taskId (by
      rw [hadding]
      exact List.mem_cons_of_mem _ hmem)
    have hne : taskId ≠ task.taskId := fun heq => haddingOnce.1 (heq ▸ hmem)
    refine ⟨hold, (hfind taskId hne).trans habsent, ?_⟩
    rw [completedTasks_addTask]
    exact hunsettled
  · intro taskId stored hstored
    rcases eq_or_ne taskId task.taskId with rfl | hne
    · exact hknown
    · exact h.table taskId stored ((hfind taskId hne).symm.trans hstored)

theorem once_exchangeStep (h : Once known flushed m) {isPrimary : Bool} {now : Int}
    {imported : List FdcsTask} {env : Enviroment} {thread : Exchange}
    (honce : (importedBy m.exchange imported).Nodup)
    (hfresh : ∀ taskId ∈ importedBy m.exchange imported, taskId ∉ known)
    (hstep : exchangeStep isPrimary now imported m.env m.exchange = some (env, thread)) :
    ∃ flushed', Once (known ++ importedBy m.exchange imported) flushed'
      { m with env := env, exchange := thread } := by
  obtain ⟨flushed', hcopied, hsub⟩ := copied_exchangeStep h.copied hstep
  obtain ⟨_, ⟨hnone, hadding⟩ | ⟨himport, hadding, rfl⟩⟩ := exchangeStep_lists hstep
  · rw [hnone, List.append_nil]
    have hone := (hadding.map FdcsTask.taskId).nodup h.addingOnce
    have hadded := fun taskId hmem => h.added taskId (ids_sublist hadding hmem)
    rcases exchangeStep_cases hstep with ⟨rfl, _⟩ | ⟨_, rfl, _⟩ | ⟨task, rest, hcall, rfl, rfl⟩
    · exact ⟨flushed', once_of_tasks_eq h (List.Subset.refl _) hcopied hsub rfl hone hadded⟩
    · exact ⟨flushed', once_of_tasks_eq h (List.Subset.refl _) hcopied hsub rfl hone hadded⟩
    · exact ⟨flushed, once_addTask h hcall⟩
  · rw [himport] at honce hfresh ⊢
    refine ⟨flushed', once_of_tasks_eq h (List.subset_append_left _ _) hcopied hsub rfl
      (hadding ▸ honce) fun taskId hmem => ?_⟩
    rw [hadding] at hmem
    exact ⟨List.mem_append_right _ hmem, h.absent_of_not_known (hfresh taskId hmem)⟩

theorem once_socketStep (h : Once known flushed m) {now : Int}
    (hstep : socketStep now m = some m') : Once known flushed m' := by
  rcases socketStep_cases hstep with ⟨call, rfl, _⟩ | ⟨report, rest, task, _, hfind, _, rfl⟩ |
    ⟨report, rest, _, rfl⟩
  · exact ⟨h.copied, h.keyed, h.settledOnce, h.addingOnce, h.settled, h.added, h.table⟩
  · -- the report is copied over the task, under the same id
    have hkeys : ∀ taskId, m.env.tasks.find? taskId = none →
        (m.env.modifyTask report.taskId fun _ => report.clearLeaseTime).tasks.find? taskId =
          none := by
      intro taskId hnone
      rw [Enviroment.modifyTask, OrderedMap.find?_modify]
      split_ifs with heq
      · rw [← heq, hnone]
        rfl
      · exact hnone
    refine ⟨h.copied, Enviroment.keyed_modifyTask h.keyed fun _ => rfl, h.settledOnce,
      h.addingOnce, fun taskId hmem => ?_, fun taskId hmem => ?_, fun taskId stored hstored => ?_⟩
    · exact ⟨(h.settled taskId hmem).1, hkeys taskId (h.settled taskId hmem).2⟩
    · obtain ⟨hknown, hnone, hnot⟩ := h.added taskId hmem
      exact ⟨hknown, hkeys taskId hnone, hnot⟩
    · cases hold : m.env.tasks.find? taskId with
      | none =>
          rw [hkeys taskId hold] at hstored
          cases hstored
      | some old => exact h.table taskId old hold
  · cases hfind : m.env.tasks.find? report.taskId with
    | none =>
        rw [Enviroment.taskCompleted_of_none hfind]
        exact ⟨h.copied, h.keyed, h.settledOnce, h.addingOnce, h.settled, h.added, h.table⟩
    | some task =>
        have hid : task.taskId = report.taskId := h.keyed _ _ hfind
        rw [Enviroment.taskCompleted_of_some hfind]
        have hnew : report.taskId ∉ ids (flushed ++ m.env.completedTasks) := by
          intro hmem
          rw [(h.settled _ hmem).2] at hfind
          cases hfind
        have hsettled : ids (flushed ++ (m.env.completedTasks ++ [task])) =
            ids (flushed ++ m.env.completedTasks) ++ [report.taskId] := by
          simp [ids, hid]
        have hgone : ∀ taskId, m.env.tasks.find? taskId = none →
            (m.env.tasks.erase report.taskId).find? taskId = none := by
          intro taskId hnone
          rw [OrderedMap.find?_erase]
          split_ifs <;> first | rfl | exact hnone
        refine ⟨copied_append h.copied task, ?_, ?_, h.addingOnce, fun taskId hmem => ?_,
          fun taskId hmem => ?_, fun taskId stored hstored => ?_⟩
        · have := Enviroment.keyed_taskCompleted h.keyed report.taskId
          rwa [Enviroment.taskCompleted_of_some hfind] at this
        · rw [hsettled]
          exact List.nodup_append.mpr ⟨h.settledOnce, List.nodup_singleton _,
            fun a ha b hb heq => hnew (List.mem_singleton.mp hb ▸ heq ▸ ha)⟩
        · rw [hsettled] at hmem
          rcases List.mem_append.mp hmem with hold | hnow
          · exact ⟨(h.settled taskId hold).1, hgone taskId (h.settled taskId hold).2⟩
          · rw [List.mem_singleton.mp hnow]
            exact ⟨h.table _ task hfind, by rw [OrderedMap.find?_erase, if_pos rfl]⟩
        · obtain ⟨hknown, hnone, hnot⟩ := h.added taskId hmem
          refine ⟨hknown, hgone taskId hnone, ?_⟩
          rw [hsettled]
          intro hin
          rcases List.mem_append.mp hin with hold | hnow
          · exact hnot hold
          · rw [List.mem_singleton.mp hnow, hfind] at hnone
            cases hnone
        · rw [OrderedMap.find?_erase] at hstored
          split_ifs at hstored
          exact h.table taskId stored hstored

theorem once_leaseFirst (h : Once known flushed m) {now : Int} {quota : Nat} :
    Once known flushed { m with env := (leaseFirst m.env now quota).2 } := by
  have hkeys : ∀ taskId, (leaseFirst m.env now quota).2.tasks.find? taskId = none ↔
      m.env.tasks.find? taskId = none := by
    intro taskId
    rw [← OrderedMap.not_mem_keys_iff, ← OrderedMap.not_mem_keys_iff]
    exact not_congr (by rw [leaseFirst, OrderedMap.keys_updateFirst])
  refine ⟨h.copied, keyed_leaseFirst h.keyed, h.settledOnce, h.addingOnce, fun taskId hmem => ?_,
    fun taskId hmem => ?_, fun taskId stored hstored => ?_⟩
  · exact ⟨(h.settled taskId hmem).1, (hkeys taskId).mpr (h.settled taskId hmem).2⟩
  · obtain ⟨hknown, hnone, hnot⟩ := h.added taskId hmem
    exact ⟨hknown, (hkeys taskId).mpr hnone, hnot⟩
  · cases hold : m.env.tasks.find? taskId with
    | none =>
        rw [(hkeys taskId).mpr hold] at hstored
        cases hstored
    | some old => exact h.table taskId old hold

theorem once_step (pb : Protobuf) (h : Once known flushed m) {a : Action}
    (hsocket : ∀ now imported, a ≠ .exchange now imported) (hstep : step pb m a = some m') :
    Once known flushed m' ∧ m'.exchange = m.exchange := by
  cases a with
  | exchange now imported => exact absurd rfl (hsocket now imported)
  | receive proto =>
      simp only [step] at hstep
      split at hstep
      · obtain rfl := Option.some.inj hstep
        exact ⟨⟨h.copied, h.keyed, h.settledOnce, h.addingOnce, h.settled, h.added, h.table⟩, rfl⟩
      · cases hstep
  | socket now =>
      refine ⟨once_socketStep h hstep, ?_⟩
      obtain ⟨_, rfl, _⟩ | ⟨_, _, _, _, _, _, rfl⟩ | ⟨_, _, _, rfl⟩ := socketStep_cases hstep
      · rfl
      · rfl
      · rfl
  | lease now quota =>
      simp only [step] at hstep
      split at hstep
      · obtain rfl := Option.some.inj hstep
        exact ⟨once_leaseFirst h, rfl⟩
      · cases hstep

/-- A master that has exported nothing starts anew with a duplicate. -/
theorem once_updateTasks (hidle : m.exchange = {}) {tasks : List FdcsTask}
    (htasks : ids tasks ⊆ known) :
    Once known [] { m with env := m.env.updateTasks tasks } where
  copied := by rw [hidle]; rfl
  keyed := Enviroment.keyed_updateTasks _ _
  settledOnce := List.nodup_nil
  addingOnce := by rw [hidle]; exact List.nodup_nil
  settled taskId hmem := nomatch hmem
  added taskId hmem := by
    rw [hidle] at hmem
    cases hmem
  table taskId task hfind := by
    have hid := Enviroment.keyed_updateTasks m.env tasks taskId task hfind
    rw [Enviroment.find?_updateTasks] at hfind
    exact htasks (hid ▸ List.mem_map_of_mem (List.mem_of_find?_eq_some hfind))

end Member

end FastDCS.ExportOnce
