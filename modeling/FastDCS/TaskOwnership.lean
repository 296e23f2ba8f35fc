import FastDCS.Enviroment
import FastDCS.Heaps
import FastDCS.Runs

/-!
The task objects of an `Enviroment`: `tasks_` and `completed_tasks_` hold
pointers, and every operation allocates, moves or deletes objects. A step that
dereferences or deletes an object that is not there has no result.
-/

namespace FastDCS.TaskOwnership

open FastDCS.Strings
open FastDCS.Messages
open FastDCS.Heaps
open FastDCS.Runs

/-- The members of an `Enviroment` with the heap. `staleReads` are the ids whose
map entry was read after it had been erased. -/
structure State where
  settings : Settings
  fdcsTimeDiffer : Int := 0
  heap : Heap FdcsTask := .empty
  tasks : OrderedMap Str Nat := .empty
  completedTasks : List Nat := []
  staleReads : List Str := []

/-- A call; `now` is what `NowTime()` returns, `stale` the pointer that the read
of an erased entry yields. -/
inductive Action where
  | addTask (task : FdcsTask)
  | updateTasks (tasks : List FdcsTask)
  | leaseTasks (now : Int)
  | getIdleTask (now : Int)
  | taskCompleted (taskId : Str) (stale : Nat)
  | clearCompletedTasks

section Operations

variable (s : State)

/-- `new FdcsTask()`, `CopyFrom` and `insert`, which does nothing where the key
is there. -/
def newTask (task : FdcsTask) : State :=
  { s with heap := s.heap.alloc task, tasks := s.tasks.insert task.taskId s.heap.next }

def addTask (task : FdcsTask) : Bool × State :=
  match s.tasks.find? task.taskId with
  | some _ => (false, s)
  | none => (true, newTask s task)

def clearCompletedTasks : Option State :=
  (s.heap.deleteAll s.completedTasks).map fun heap =>
    { s with heap := heap, completedTasks := [] }

def clearTasks : Option State :=
  (s.heap.deleteAll s.tasks.values).map fun heap => { s with heap := heap, tasks := .empty }

def updateTasks (tasks : List FdcsTask) : Option State :=
  (clearTasks s).bind fun s => (clearCompletedTasks s).map fun s => tasks.foldl newTask s

/-- The loop of `LeaseTasks` over the pointers of the map, with what is left of
`task_duplicate`. -/
def leaseLoop (fdcsTime leaseTimeout : Int) :
    List Nat → Int → Heap FdcsTask → Option (List FdcsTask × Heap FdcsTask)
  | [], _, heap => some ([], heap)
  | p :: rest, taskDuplicate, heap =>
      (heap.find? p).bind fun task =>
        if task.lease < fdcsTime then
          if taskDuplicate ≤ 0 then some ([], heap)
          else
            (heap.write p (task.setLeaseTime (fdcsTime + leaseTimeout))).bind fun heap =>
              (leaseLoop fdcsTime leaseTimeout rest (taskDuplicate - 1) heap).map fun r =>
                (task.clearLeaseTime :: r.1, r.2)
        else leaseLoop fdcsTime leaseTimeout rest taskDuplicate heap

def leaseTasks (now : Int) : Option (List FdcsTask × State) :=
  (leaseLoop (now + s.fdcsTimeDiffer) s.settings.leaseTimeout s.tasks.values
    s.settings.taskDuplicate s.heap).map fun r => (r.1, { s with heap := r.2 })

def idleLoop (fdcsTime leaseTimeout : Int) :
    List Nat → Heap FdcsTask → Option (Option Nat × Heap FdcsTask)
  | [], heap => some (none, heap)
  | p :: rest, heap =>
      (heap.find? p).bind fun task =>
        if task.lease < fdcsTime then
          (heap.write p (task.setLeaseTime (fdcsTime + leaseTimeout))).map fun heap =>
            (some p, heap)
        else idleLoop fdcsTime leaseTimeout rest heap

def getIdleTask (now : Int) : Option (Option Nat × State) :=
  (idleLoop (now + s.fdcsTimeDiffer) s.settings.leaseTimeout s.tasks.values s.heap).map fun r =>
    (r.1, { s with heap := r.2 })

/-- `tasks_.erase(task_id)` comes first, `it->second` is read behind it. -/
def taskCompleted (taskId : Str) (stale : Nat) : State :=
  match s.tasks.find? taskId with
  | some _ =>
      { s with
        tasks := s.tasks.erase taskId
        completedTasks := s.completedTasks ++ [stale]
        staleReads := s.staleReads ++ [taskId] }
  | none => s

def step (s : State) : Action → Option State
  | .addTask task => some (addTask s task).2
  | .updateTasks tasks => updateTasks s tasks
  | .leaseTasks now => (leaseTasks s now).map Prod.snd
  | .getIdleTask now => (getIdleTask s now).map Prod.snd
  | .taskCompleted taskId stale => some (taskCompleted s taskId stale)
  | .clearCompletedTasks => clearCompletedTasks s

end Operations

section Refinement

def deref (heap : Heap FdcsTask) (p : Nat) : FdcsTask := (heap.find? p).getD {}

/-- The store with each pointer replaced by its object. -/
def view (s : State) : Enviroment where
  settings := s.settings
  fdcsTimeDiffer := s.fdcsTimeDiffer
  completedTasks := s.completedTasks.map (deref s.heap)
  tasks := s.tasks.map (deref s.heap)

def envStep (env : Enviroment) : Action → Enviroment
  | .addTask task => (env.addTask task).2
  | .updateTasks tasks => env.updateTasks tasks
  | .leaseTasks now => (env.leaseTasks now []).2
  | .getIdleTask now => (env.getIdleTask now).2
  | .taskCompleted taskId _ => env.taskCompleted taskId
  | .clearCompletedTasks => env.clearCompletedTasks

/-- The read of an erased entry yields the pointer that stood there. -/
def ReadsEntry (s : State) : Action → Prop
  | .taskCompleted taskId stale => ∀ p, s.tasks.find? taskId = some p → stale = p
  | _ => True

/-- The pointers are distinct and lead to objects, those of the table to tasks
of their ids. -/
structure Placed (s : State) : Prop where
  keyed : ∀ taskId p, s.tasks.find? taskId = some p →
    ∃ task, s.heap.find? p = some task ∧ task.taskId = taskId
  nodup : (s.tasks.values ++ s.completedTasks).Nodup
  live : ∀ p ∈ s.tasks.values ++ s.completedTasks, (s.heap.find? p).isSome

variable {s s' : State}

theorem Placed.ne_next (hs : Placed s) {p : Nat} (hp : p ∈ s.tasks.values ++ s.completedTasks) :
    p ≠ s.heap.next := by
  rintro rfl
  have hlive := hs.live _ hp
  rw [Heap.find?_next] at hlive
  cases hlive

theorem placed_newTask (hs : Placed s) (task : FdcsTask) :
    Placed (newTask s task) ∧
      view (newTask s task) =
        { view s with tasks := (view s).tasks.insert task.taskId task } := by
  have hderef : ∀ p ∈ s.tasks.values ++ s.completedTasks,
      deref (s.heap.alloc task) p = deref s.heap p := fun p hp => by
    rw [deref, deref, Heap.find?_alloc, if_neg (hs.ne_next hp)]
  have htasks : (s.tasks.insert task.taskId s.heap.next).map (deref (s.heap.alloc task)) =
      (s.tasks.map (deref s.heap)).insert task.taskId task := by
    have hnew : deref (s.heap.alloc task) s.heap.next = task := by
      rw [deref, Heap.find?_alloc, if_pos rfl]
      rfl
    rw [OrderedMap.map_insert, hnew]
    exact congrArg (fun m => OrderedMap.insert m task.taskId task)
      (OrderedMap.map_congr fun p hp => hderef p (List.mem_append_left _ hp))
  have hcompleted : s.completedTasks.map (deref (s.heap.alloc task)) =
      s.completedTasks.map (deref s.heap) :=
    List.map_congr_left fun p hp => hderef p (List.mem_append_right _ hp)
  refine ⟨⟨?_, ?_, ?_⟩, ?_⟩
  · intro taskId p hfind
    change (s.tasks.insert task.taskId s.heap.next).find? taskId = some p at hfind
    change ∃ stored, (s.heap.alloc task).find? p = some stored ∧ stored.taskId = taskId
    rw [OrderedMap.find?_insert] at hfind
    have hold : s.tasks.find? taskId = some p →
        ∃ stored, (s.heap.alloc task).find? p = some stored ∧ stored.taskId = taskId := by
      intro hmem
      obtain ⟨stored, hstored, hid⟩ := hs.keyed taskId p hmem
      have hne := hs.ne_next (List.mem_append_left _ (OrderedMap.mem_values.mpr ⟨taskId, hmem⟩))
      exact ⟨stored, by rw [Heap.find?_alloc, if_neg hne, hstored], hid⟩
    split_ifs at hfind with heq
    · cases hpresent : s.tasks.find? task.taskId with
      | some q =>
          rw [hpresent] at hfind
          exact hold (by rw [heq, hpresent, ← hfind]; rfl)
      | none =>
          rw [hpresent] at hfind
          obtain rfl : s.heap.next = p := Option.some.inj hfind
          exact ⟨task, by rw [Heap.find?_alloc, if_pos rfl], heq.symm⟩
    · exact hold hfind
  · change ((s.tasks.insert task.taskId s.heap.next).values ++ s.completedTasks).Nodup
    cases hpresent : s.tasks.find? task.taskId with
    | some q =>
        rw [OrderedMap.insert_of_some hpresent]
        exact hs.nodup
    | none =>
        have hvalues := (OrderedMap.values_insert_perm (x := s.heap.next) hpresent).append_right
          s.completedTasks
        refine hvalues.nodup_iff.mpr (List.nodup_cons.mpr ⟨fun hmem => ?_, hs.nodup⟩)
        exact hs.ne_next hmem rfl
  · intro p hp
    change p ∈ (s.tasks.insert task.taskId s.heap.next).values ++ s.completedTasks at hp
    change ((s.heap.alloc task).find? p).isSome
    rw [Heap.find?_alloc]
    split_ifs with heq
    · rfl
    · refine hs.live p ?_
      cases hpresent : s.tasks.find? task.taskId with
      | some q => rwa [OrderedMap.insert_of_some hpresent] at hp
      | none =>
          have hvalues := (OrderedMap.values_insert_perm (x := s.heap.next) hpresent).append_right
            s.completedTasks
          exact (List.mem_cons.mp (hvalues.mem_iff.mp hp)).resolve_left heq
  · rw [view, view]
    simp only [newTask, htasks, hcompleted]

theorem placed_foldl_newTask (hs : Placed s) (tasks : List FdcsTask) :
    Placed (tasks.foldl newTask s) ∧
      view (tasks.foldl newTask s) =
        { view s with
          tasks := tasks.foldl (fun m task => m.insert task.taskId task) (view s).tasks } := by
  induction tasks generalizing s with
  | nil => exact ⟨hs, rfl⟩
  | cons task rest ih =>
      obtain ⟨hnew, hview⟩ := placed_newTask hs task
      obtain ⟨hrest, hviewRest⟩ := ih hnew
      refine ⟨hrest, ?_⟩
      rw [List.foldl_cons, hviewRest, hview]
      rfl

theorem placed_addTask (hs : Placed s) (task : FdcsTask) :
    Placed (addTask s task).2 ∧ view (addTask s task).2 = ((view s).addTask task).2 := by
  have hfindView : (view s).tasks.find? task.taskId =
      (s.tasks.find? task.taskId).map (deref s.heap) := OrderedMap.find?_map _ _ _
  rw [addTask]
  cases hfind : s.tasks.find? task.taskId with
  | some p =>
      rw [hfind] at hfindView
      rw [Enviroment.addTask_of_some hfindView]
      exact ⟨hs, rfl⟩
  | none =>
      rw [hfind] at hfindView
      rw [Enviroment.addTask_of_none hfindView]
      exact placed_newTask hs task

/-- Deleting the objects of one container leaves those of the other. -/
theorem placed_clearCompletedTasks (hs : Placed s) (h : clearCompletedTasks s = some s') :
    Placed s' ∧ view s' = (view s).clearCompletedTasks := by
  obtain ⟨heap, hdelete, rfl⟩ := Option.map_eq_some_iff.mp h
  have hkept : ∀ p ∈ s.tasks.values, heap.find? p = s.heap.find? p := fun p hp => by
    rw [Heap.find?_deleteAll hdelete, if_neg]
    exact fun hmem => (List.nodup_append.mp hs.nodup).2.2 p hp p hmem rfl
  refine ⟨⟨?_, ?_, ?_⟩, ?_⟩
  · intro taskId p hfind
    change ∃ task, heap.find? p = some task ∧ task.taskId = taskId
    rw [hkept p (OrderedMap.mem_values.mpr ⟨taskId, hfind⟩)]
    exact hs.keyed taskId p hfind
  · simpa using (List.nodup_append.mp hs.nodup).1
  · intro p hp
    rw [List.append_nil] at hp
    change (heap.find? p).isSome
    rw [hkept p hp]
    exact hs.live p (List.mem_append_left _ hp)
  · have htasks : s.tasks.map (deref heap) = s.tasks.map (deref s.heap) :=
      OrderedMap.map_congr fun p hp => by rw [deref, deref, hkept p hp]
    simp only [view, htasks, Enviroment.clearCompletedTasks, List.map_nil]

theorem placed_clearTasks (hs : Placed s) (h : clearTasks s = some s') :
    Placed s' ∧ view s' = { view s with tasks := .empty } := by
  obtain ⟨heap, hdelete, rfl⟩ := Option.map_eq_some_iff.mp h
  have hkept : ∀ p ∈ s.completedTasks, heap.find? p = s.heap.find? p := fun p hp => by
    rw [Heap.find?_deleteAll hdelete, if_neg]
    exact fun hmem => (List.nodup_append.mp hs.nodup).2.2 p hmem p hp rfl
  refine ⟨⟨fun _ _ hfind => (nomatch hfind), (List.nodup_append.mp hs.nodup).2.1, ?_⟩, ?_⟩
  · intro p hp
    change (heap.find? p).isSome
    rw [hkept p hp]
    exact hs.live p (List.mem_append_right _ hp)
  · have hcompleted : s.completedTasks.map (deref heap) = s.completedTasks.map (deref s.heap) :=
      List.map_congr_left fun p hp => by rw [deref, deref, hkept p hp]
    simp only [view, hcompleted]
    rfl

theorem deref_of_some {heap : Heap FdcsTask} {p : Nat} {task : FdcsTask}
    (h : heap.find? p = some task) : deref heap p = task := by
  rw [deref, h, Option.getD_some]

theorem map_deref_write {heap heap' : Heap FdcsTask} {p : Nat} {task : FdcsTask}
    (h : heap.write p task = some heap') {entries : List (Str × Nat)}
    (hp : p ∉ entries.map Prod.snd) :
    entries.map (fun e => (e.1, deref heap' e.2)) = entries.map fun e => (e.1, deref heap e.2) := by
  refine List.map_congr_left fun e he => ?_
  have hne : e.2 ≠ p := fun heq => hp (heq ▸ List.mem_map_of_mem he)
  rw [deref, deref, Heap.find?_write h, if_neg hne]

/-- The loop of `LeaseTasks` on pointers is the one on the tasks they lead to; it
changes no other object. -/
theorem leaseLoop_refines (env : Enviroment) (now : Int) {entries : List (Str × Nat)}
    (hnodup : (entries.map Prod.snd).Nodup) {taskDuplicate : Int} {heap : Heap FdcsTask}
    {r : List FdcsTask × Heap FdcsTask}
    (h : leaseLoop (env.fdcsTime now) env.settings.leaseTimeout (entries.map Prod.snd)
      taskDuplicate heap = some r) (tasks : List FdcsTask) :
    (OrderedMap.walkList (env.leaseTurn now) (taskDuplicate, tasks)
        (entries.map fun e => (e.1, deref heap e.2))).2 =
      entries.map (fun e => (e.1, deref r.2 e.2)) ∧
    ∀ q, q ∉ entries.map Prod.snd → r.2.find? q = heap.find? q := by
  induction entries generalizing taskDuplicate heap r tasks with
  | nil =>
      obtain rfl := Option.some.inj h
      exact ⟨rfl, fun _ _ => rfl⟩
  | cons e rest ih =>
      obtain ⟨taskId, p⟩ := e
      obtain ⟨hp, hrest⟩ := List.nodup_cons.mp hnodup
      rw [List.map_cons, leaseLoop, Option.bind_eq_some_iff] at h
      obtain ⟨task, hfind, h⟩ := h
      rw [List.map_cons, OrderedMap.walkList, deref_of_some hfind]
      simp only [Enviroment.leaseTurn, Enviroment.isIdle_eq_true]
      split_ifs at h ⊢ with hidle hleft
      · -- the loop is left
        obtain rfl := Option.some.inj h
        refine ⟨?_, fun _ _ => rfl⟩
        rw [List.map_cons, deref_of_some hfind]
      · obtain ⟨heap', hwrite, hloop⟩ := Option.bind_eq_some_iff.mp h
        obtain ⟨r', hr', rfl⟩ := Option.map_eq_some_iff.mp hloop
        obtain ⟨hwalk, hkept⟩ := ih hrest hr' (tasks ++ [task.clearLeaseTime])
        rw [map_deref_write hwrite hp] at hwalk
        have hnew : deref r'.2 p = env.leased now task :=
          deref_of_some (by rw [hkept p hp, Heap.find?_write hwrite, if_pos rfl]; rfl)
        refine ⟨?_, fun q hq => ?_⟩
        · rw [List.map_cons, hnew]
          exact congrArg _ hwalk
        · rw [List.map_cons, List.mem_cons, not_or] at hq
          rw [hkept q hq.2, Heap.find?_write hwrite, if_neg hq.1]
      · obtain ⟨hwalk, hkept⟩ := ih hrest h tasks
        refine ⟨?_, fun q hq => hkept q fun hmem => hq (List.mem_cons_of_mem _ hmem)⟩
        rw [List.map_cons, deref_of_some (by rw [hkept p hp, hfind])]
        exact congrArg _ hwalk

theorem idleLoop_refines (env : Enviroment) (now : Int) {entries : List (Str × Nat)}
    (hnodup : (entries.map Prod.snd).Nodup) {heap : Heap FdcsTask}
    {r : Option Nat × Heap FdcsTask}
    (h : idleLoop (env.fdcsTime now) env.settings.leaseTimeout (entries.map Prod.snd) heap =
      some r) (found : Option FdcsTask) :
    (OrderedMap.walkList (env.idleTurn now) found
        (entries.map fun e => (e.1, deref heap e.2))).2 =
      entries.map (fun e => (e.1, deref r.2 e.2)) ∧
    ∀ q, q ∉ entries.map Prod.snd → r.2.find? q = heap.find? q := by
  induction entries with
  | nil =>
      obtain rfl := Option.some.inj h
      exact ⟨rfl, fun _ _ => rfl⟩
  | cons e rest ih =>
      obtain ⟨taskId, p⟩ := e
      obtain ⟨hp, hrest⟩ := List.nodup_cons.mp hnodup
      rw [List.map_cons, idleLoop, Option.bind_eq_some_iff] at h
      obtain ⟨task, hfind, h⟩ := h
      rw [List.map_cons, OrderedMap.walkList, deref_of_some hfind]
      simp only [Enviroment.idleTurn, Enviroment.isIdle_eq_true]
      split_ifs at h ⊢ with hidle
      · obtain ⟨heap', hwrite, rfl⟩ := Option.map_eq_some_iff.mp h
        refine ⟨?_, fun q hq => ?_⟩
        · rw [List.map_cons, map_deref_write hwrite hp,
            deref_of_some (by rw [Heap.find?_write hwrite, if_pos rfl])]
          rfl
        · rw [List.map_cons, List.mem_cons, not_or] at hq
          rw [Heap.find?_write hwrite, if_neg hq.1]
      · obtain ⟨hwalk, hkept⟩ := ih hrest h
        refine ⟨?_, fun q hq => hkept q fun hmem => hq (List.mem_cons_of_mem _ hmem)⟩
        rw [List.map_cons, deref_of_some (by rw [hkept p hp, hfind])]
        exact congrArg _ hwalk

theorem taskIds_write {heap heap' : Heap FdcsTask} {p : Nat} {task : FdcsTask} {time : Int}
    (hfind : heap.find? p = some task) (h : heap.write p (task.setLeaseTime time) = some heap')
    (q : Nat) : (heap'.find? q).map FdcsTask.taskId = (heap.find? q).map FdcsTask.taskId := by
  rw [Heap.find?_write h]
  split_ifs with heq
  · rw [heq, hfind]
    rfl
  · rfl

theorem taskIds_leaseLoop {fdcsTime leaseTimeout taskDuplicate : Int} {ps : List Nat}
    {heap : Heap FdcsTask} {r : List FdcsTask × Heap FdcsTask}
    (h : leaseLoop fdcsTime leaseTimeout ps taskDuplicate heap = some r) (q : Nat) :
    (r.2.find? q).map FdcsTask.taskId = (heap.find? q).map FdcsTask.taskId := by
  induction ps generalizing taskDuplicate heap r with
  | nil =>
      obtain rfl := Option.some.inj h
      rfl
  | cons p rest ih =>
      rw [leaseLoop, Option.bind_eq_some_iff] at h
      obtain ⟨task, hfind, h⟩ := h
      split_ifs at h
      · obtain rfl := Option.some.inj h
        rfl
      · obtain ⟨heap', hwrite, hrest⟩ := Option.bind_eq_some_iff.mp h
        obtain ⟨r', hr', rfl⟩ := Option.map_eq_some_iff.mp hrest
        exact (ih hr').trans (taskIds_write hfind hwrite q)
      · exact ih h

theorem taskIds_idleLoop {fdcsTime leaseTimeout : Int} {ps : List Nat}
    {heap : Heap FdcsTask} {r : Option Nat × Heap FdcsTask}
    (h : idleLoop fdcsTime leaseTimeout ps heap = some r) (q : Nat) :
    (r.2.find? q).map FdcsTask.taskId = (heap.find? q).map FdcsTask.taskId := by
  induction ps with
  | nil =>
      obtain rfl := Option.some.inj h
      rfl
  | cons p rest ih =>
      rw [idleLoop, Option.bind_eq_some_iff] at h
      obtain ⟨task, hfind, h⟩ := h
      split_ifs at h
      · obtain ⟨heap', hwrite, rfl⟩ := Option.map_eq_some_iff.mp h
        exact taskIds_write hfind hwrite q
      · exact ih h

/-- Setting leases changes no object's id and allocates and deletes none. -/
theorem placed_of_taskIds_eq {heap : Heap FdcsTask} (hs : Placed s)
    (hids : ∀ p, (heap.find? p).map FdcsTask.taskId = (s.heap.find? p).map FdcsTask.taskId) :
    Placed { s with heap := heap } where
  keyed taskId p hfind := by
    obtain ⟨task, htask, hid⟩ := hs.keyed taskId p hfind
    have hsame := hids p
    rw [htask] at hsame
    obtain ⟨new, hnew, hnewId⟩ := Option.map_eq_some_iff.mp hsame
    exact ⟨new, hnew, hnewId.trans hid⟩
  nodup := hs.nodup
  live p hp := by
    have hsame := congrArg Option.isSome (hids p)
    rw [Option.isSome_map, Option.isSome_map] at hsame
    exact hsame.trans (hs.live p hp)

/-- Where a loop over the table leaves all other objects as they are, the
completed tasks are as before. -/
theorem view_of_kept (hs : Placed s) {heap : Heap FdcsTask} {tasks : OrderedMap Str FdcsTask}
    (hkept : ∀ q, q ∉ s.tasks.values → heap.find? q = s.heap.find? q)
    (htasks : tasks.entries = s.tasks.entries.map fun e => (e.1, deref heap e.2)) :
    view { s with heap := heap } = { view s with tasks := tasks } := by
  have hcompleted : s.completedTasks.map (deref heap) = s.completedTasks.map (deref s.heap) := by
    refine List.map_congr_left fun p hp => ?_
    rw [deref, deref, hkept p]
    exact fun hmem => (List.nodup_append.mp hs.nodup).2.2 p hmem p hp rfl
  have hmap : s.tasks.map (deref heap) = tasks := OrderedMap.ext htasks.symm
  simp only [view, hcompleted, hmap]

theorem placed_taskCompleted (hs : Placed s) {taskId : Str} {stale : Nat}
    (hread : ∀ p, s.tasks.find? taskId = some p → stale = p) :
    Placed (taskCompleted s taskId stale) ∧
      view (taskCompleted s taskId stale) = (view s).taskCompleted taskId := by
  have hfindView : (view s).tasks.find? taskId = (s.tasks.find? taskId).map (deref s.heap) :=
    OrderedMap.find?_map _ _ _
  rw [taskCompleted]
  cases hfind : s.tasks.find? taskId with
  | none =>
      rw [hfind] at hfindView
      rw [Enviroment.taskCompleted_of_none hfindView]
      exact ⟨hs, rfl⟩
  | some p =>
      obtain rfl := hread p hfind
      rw [hfind] at hfindView
      rw [Enviroment.taskCompleted_of_some hfindView]
      -- the pointer moves from one container to the other
      have hperm : (s.tasks.values ++ s.completedTasks).Perm
          ((s.tasks.erase taskId).values ++ (s.completedTasks ++ [stale])) := by
        refine ((OrderedMap.values_erase_perm hfind).append_right _).trans ?_
        rw [← List.append_assoc]
        exact (List.perm_append_singleton _ _).symm
      refine ⟨⟨?_, hperm.nodup_iff.mp hs.nodup, fun q hq => hs.live q (hperm.mem_iff.mpr hq)⟩, ?_⟩
      · intro other q hq
        change (s.tasks.erase taskId).find? other = some q at hq
        rw [OrderedMap.find?_erase] at hq
        split_ifs at hq
        exact hs.keyed other q hq
      · simp only [view, OrderedMap.map_erase, List.map_append, List.map_cons, List.map_nil]

/-- The store of pointers refines the store of tasks, where reading an erased
entry yields what stood there. -/
theorem step_refines {a : Action} (hs : Placed s) (hread : ReadsEntry s a)
    (h : step s a = some s') : Placed s' ∧ view s' = envStep (view s) a := by
  have hnodup : (s.tasks.entries.map Prod.snd).Nodup := (List.nodup_append.mp hs.nodup).1
  cases a with
  | addTask task =>
      obtain rfl := Option.some.inj h
      exact placed_addTask hs task
  | updateTasks tasks =>
      obtain ⟨s₁, htasks, h⟩ := Option.bind_eq_some_iff.mp h
      obtain ⟨s₂, hcompleted, rfl⟩ := Option.map_eq_some_iff.mp h
      obtain ⟨hs₁, hview₁⟩ := placed_clearTasks hs htasks
      obtain ⟨hs₂, hview₂⟩ := placed_clearCompletedTasks hs₁ hcompleted
      obtain ⟨hplaced, hview⟩ := placed_foldl_newTask hs₂ tasks
      refine ⟨hplaced, ?_⟩
      rw [hview, hview₂, hview₁]
      rfl
  | leaseTasks now =>
      obtain ⟨r, hr, rfl⟩ := Option.map_eq_some_iff.mp h
      obtain ⟨r', hloop, rfl⟩ := Option.map_eq_some_iff.mp hr
      obtain ⟨hwalk, hkept⟩ := leaseLoop_refines (view s) now hnodup hloop []
      exact ⟨placed_of_taskIds_eq hs (taskIds_leaseLoop hloop), view_of_kept hs hkept hwalk⟩
  | getIdleTask now =>
      obtain ⟨r, hr, rfl⟩ := Option.map_eq_some_iff.mp h
      obtain ⟨r', hloop, rfl⟩ := Option.map_eq_some_iff.mp hr
      obtain ⟨hwalk, hkept⟩ := idleLoop_refines (view s) now hnodup hloop none
      exact ⟨placed_of_taskIds_eq hs (taskIds_idleLoop hloop), view_of_kept hs hkept hwalk⟩
  | taskCompleted taskId stale =>
      obtain rfl := Option.some.inj h
      exact placed_taskCompleted hs hread
  | clearCompletedTasks => exact placed_clearCompletedTasks hs h

theorem run_refines {actions : List Action} {t : State} (hs : Placed s)
    (hread : Along step ReadsEntry s actions) (hrun : run step s actions = some t) :
    Placed t ∧ view t = actions.foldl envStep (view s) := by
  induction actions generalizing s with
  | nil =>
      obtain rfl : s = t := by simpa using hrun
      exact ⟨hs, rfl⟩
  | cons a rest ih =>
      obtain ⟨s₁, hstep, hrest⟩ := run_cons_eq_some.mp hrun
      obtain ⟨hs₁, hview⟩ := step_refines hs hread.1 hstep
      obtain ⟨ht, hviewRest⟩ := ih hs₁ (hread.2 s₁ hstep) hrest
      exact ⟨ht, by rw [hviewRest, hview, List.foldl_cons]⟩

end Refinement

section Ownership

/-- Every task stands under its id, every object is owned by one of the two
containers once, and no entry is read behind its erasure. -/
structure Sound (s : State) : Prop where
  keyed : ∀ taskId p, s.tasks.find? taskId = some p →
    ∃ task, s.heap.find? p = some task ∧ task.taskId = taskId
  owned : s.heap.Owns (s.tasks.values ++ s.completedTasks)
  reads : s.staleReads = []

/-- The calls that keep all of it: new tasks have distinct ids, and no task of
the table is completed. -/
def Allowed (s : State) : Action → Prop
  | .updateTasks tasks => (tasks.map FdcsTask.taskId).Nodup
  | .taskCompleted taskId _ => s.tasks.find? taskId = none
  | _ => True

instance (s : State) : ∀ a, Decidable (Allowed s a)
  | .addTask _ => isTrue trivial
  | .updateTasks _ => inferInstanceAs (Decidable (List.Nodup _))
  | .leaseTasks _ => isTrue trivial
  | .getIdleTask _ => isTrue trivial
  | .taskCompleted _ _ => inferInstanceAs (Decidable (_ = none))
  | .clearCompletedTasks => isTrue trivial

/-- An object that neither container owns. -/
def Leaked (s : State) : Prop :=
  ∃ p, (s.heap.find? p).isSome ∧ p ∉ s.tasks.values ++ s.completedTasks

variable {s s' : State}

theorem sound_initial (settings : Settings) (fdcsTimeDiffer : Int) :
    Sound { settings := settings, fdcsTimeDiffer := fdcsTimeDiffer } where
  keyed _ _ h := nomatch h
  owned _ := rfl
  reads := rfl

theorem Sound.placed (hs : Sound s) : Placed s where
  keyed := hs.keyed
  nodup := hs.owned.nodup
  live _ hp := hs.owned.find?_isSome hp

theorem not_sound_of_leaked (h : Leaked s) : ¬Sound s := by
  obtain ⟨p, hp, hmem⟩ := h
  exact fun hs => hmem (hs.owned.mem hp)

theorem leaked_newTask (h : Leaked s) (task : FdcsTask) : Leaked (newTask s task) := by
  obtain ⟨p, hp, hmem⟩ := h
  have hne : p ≠ s.heap.next := by
    rintro rfl
    rw [Heap.find?_next] at hp
    cases hp
  refine ⟨p, ?_, ?_⟩
  · change ((s.heap.alloc task).find? p).isSome
    rw [Heap.find?_alloc, if_neg hne]
    exact hp
  · change p ∉ (s.tasks.insert task.taskId s.heap.next).values ++ s.completedTasks
    cases hfind : s.tasks.find? task.taskId with
    | some q => rwa [OrderedMap.insert_of_some hfind]
    | none =>
        have hvalues := (OrderedMap.values_insert_perm (x := s.heap.next) hfind).mem_iff (a := p)
        rw [List.mem_append, hvalues, List.mem_cons, or_assoc, ← List.mem_append]
        exact fun h => h.elim hne hmem

/-- A task under a new id is owned by the table, one under a used id by nobody. -/
theorem sound_newTask_iff (hs : Sound s) (task : FdcsTask) :
    (Sound (newTask s task) ↔ s.tasks.find? task.taskId = none) ∧
      (s.tasks.find? task.taskId ≠ none → Leaked (newTask s task)) := by
  have hleak : s.tasks.find? task.taskId ≠ none → Leaked (newTask s task) := by
    intro hsome
    obtain ⟨q, hq⟩ := Option.ne_none_iff_exists'.mp hsome
    refine ⟨s.heap.next, ?_, ?_⟩
    · change ((s.heap.alloc task).find? s.heap.next).isSome
      rw [Heap.find?_alloc, if_pos rfl]
      rfl
    · change s.heap.next ∉ (s.tasks.insert task.taskId s.heap.next).values ++ s.completedTasks
      rw [OrderedMap.insert_of_some hq]
      intro hmem
      have hlive := hs.owned.find?_isSome hmem
      rw [Heap.find?_next] at hlive
      cases hlive
  refine ⟨⟨fun h => ?_, fun hnone => ?_⟩, hleak⟩
  · by_contra hsome
    exact not_sound_of_leaked (hleak hsome) h
  · have hvalues := OrderedMap.values_insert_perm (x := s.heap.next) hnone
    exact ⟨(placed_newTask hs.placed task).1.keyed,
      (hs.owned.alloc task).perm (hvalues.symm.append_right s.completedTasks), hs.reads⟩

theorem find?_newTask (task : FdcsTask) (taskId : Str) :
    (newTask s task).tasks.find? taskId = none ↔
      taskId ≠ task.taskId ∧ s.tasks.find? taskId = none := by
  change (s.tasks.insert task.taskId s.heap.next).find? taskId = none ↔ _
  rw [OrderedMap.find?_insert]
  split_ifs with heq <;> simp [heq]

theorem leaked_foldl_newTask (h : Leaked s) (tasks : List FdcsTask) :
    Leaked (tasks.foldl newTask s) := by
  induction tasks generalizing s with
  | nil => exact h
  | cons task rest ih => exact ih (leaked_newTask h task)

/-- New tasks are all owned exactly when their ids are distinct and unused. -/
theorem sound_foldl_newTask_iff (hs : Sound s) (tasks : List FdcsTask) :
    Sound (tasks.foldl newTask s) ↔
      (tasks.map FdcsTask.taskId).Nodup ∧
        ∀ task ∈ tasks, s.tasks.find? task.taskId = none := by
  induction tasks generalizing s with
  | nil => simpa using hs
  | cons task rest ih =>
      obtain ⟨hnew, hleak⟩ := sound_newTask_iff hs task
      rw [List.foldl_cons, List.map_cons, List.nodup_cons]
      by_cases hnone : s.tasks.find? task.taskId = none
      · rw [ih (hnew.mpr hnone)]
        simp only [find?_newTask, List.mem_cons, forall_eq_or_imp, List.mem_map, not_exists]
        constructor
        · rintro ⟨hnodup, hfresh⟩
          refine ⟨⟨fun other hother => (hfresh other hother.1).1 hother.2, hnodup⟩, hnone,
            fun other hother => (hfresh other hother).2⟩
        · rintro ⟨⟨hdistinct, hnodup⟩, _, hunused⟩
          exact ⟨hnodup, fun other hother =>
            ⟨fun heq => hdistinct other ⟨hother, heq⟩, hunused other hother⟩⟩
      · constructor
        · exact fun h => absurd h
            (not_sound_of_leaked (leaked_foldl_newTask (hleak hnone) rest))
        · exact fun h => absurd (h.2 task List.mem_cons_self) hnone

theorem sound_addTask (hs : Sound s) (task : FdcsTask) : Sound (addTask s task).2 := by
  rw [addTask]
  cases hfind : s.tasks.find? task.taskId with
  | some p => exact hs
  | none => exact (sound_newTask_iff hs task).1.mpr hfind

theorem sound_clearCompletedTasks (hs : Sound s) (h : clearCompletedTasks s = some s') :
    Sound s' := by
  have hplaced := (placed_clearCompletedTasks hs.placed h).1
  obtain ⟨heap, hdelete, rfl⟩ := Option.map_eq_some_iff.mp h
  have howned := hs.owned.deleteAll hdelete
  exact ⟨hplaced.keyed, by simpa using howned, hs.reads⟩

theorem sound_clearTasks (hs : Sound s) (h : clearTasks s = some s') : Sound s' := by
  have hplaced := (placed_clearTasks hs.placed h).1
  obtain ⟨heap, hdelete, rfl⟩ := Option.map_eq_some_iff.mp h
  exact ⟨hplaced.keyed, (hs.owned.perm List.perm_append_comm).deleteAll hdelete, hs.reads⟩

theorem sound_of_taskIds_eq {heap : Heap FdcsTask} (hs : Sound s)
    (hids : ∀ p, (heap.find? p).map FdcsTask.taskId = (s.heap.find? p).map FdcsTask.taskId) :
    Sound { s with heap := heap } where
  keyed := (placed_of_taskIds_eq hs.placed hids).keyed
  owned := hs.owned.of_isSome_eq fun p => by
    have hsame := congrArg Option.isSome (hids p)
    rwa [Option.isSome_map, Option.isSome_map] at hsame
  reads := hs.reads

theorem sound_updateTasks_iff (hs : Sound s) {tasks : List FdcsTask}
    (h : updateTasks s tasks = some s') :
    Sound s' ↔ (tasks.map FdcsTask.taskId).Nodup := by
  obtain ⟨s₁, htasks, h⟩ := Option.bind_eq_some_iff.mp h
  obtain ⟨s₂, hcompleted, rfl⟩ := Option.map_eq_some_iff.mp h
  have hs₂ := sound_clearCompletedTasks (sound_clearTasks hs htasks) hcompleted
  rw [sound_foldl_newTask_iff hs₂]
  refine and_iff_left fun task _ => ?_
  obtain ⟨heap, _, rfl⟩ := Option.map_eq_some_iff.mp hcompleted
  obtain ⟨heap, _, rfl⟩ := Option.map_eq_some_iff.mp htasks
  rfl

/-- A call keeps the ownership exactly when it is allowed. -/
theorem sound_step_iff {a : Action} (hs : Sound s) (h : step s a = some s') :
    Sound s' ↔ Allowed s a := by
  cases a with
  | addTask task =>
      obtain rfl := Option.some.inj h
      exact iff_of_true (sound_addTask hs task) trivial
  | updateTasks tasks => exact sound_updateTasks_iff hs h
  | leaseTasks now =>
      obtain ⟨r, hr, rfl⟩ := Option.map_eq_some_iff.mp h
      obtain ⟨r', hloop, rfl⟩ := Option.map_eq_some_iff.mp hr
      exact iff_of_true (sound_of_taskIds_eq hs (taskIds_leaseLoop hloop)) trivial
  | getIdleTask now =>
      obtain ⟨r, hr, rfl⟩ := Option.map_eq_some_iff.mp h
      obtain ⟨r', hloop, rfl⟩ := Option.map_eq_some_iff.mp hr
      exact iff_of_true (sound_of_taskIds_eq hs (taskIds_idleLoop hloop)) trivial
  | taskCompleted taskId stale =>
      obtain rfl := Option.some.inj h
      rw [Allowed, taskCompleted]
      cases hfind : s.tasks.find? taskId with
      | none => exact iff_of_true hs rfl
      | some p => exact iff_of_false (fun hs' => by simpa using hs'.reads) (Option.some_ne_none p)
  | clearCompletedTasks => exact iff_of_true (sound_clearCompletedTasks hs h) trivial

theorem exists_leaseLoop (fdcsTime leaseTimeout : Int) {ps : List Nat} (taskDuplicate : Int)
    {heap : Heap FdcsTask} (hlive : ∀ p ∈ ps, (heap.find? p).isSome) :
    ∃ r, leaseLoop fdcsTime leaseTimeout ps taskDuplicate heap = some r := by
  induction ps generalizing taskDuplicate heap with
  | nil => exact ⟨_, rfl⟩
  | cons p rest ih =>
      obtain ⟨task, htask⟩ := Option.isSome_iff_exists.mp (hlive p List.mem_cons_self)
      have hrest : ∀ q ∈ rest, (heap.find? q).isSome := fun q hq =>
        hlive q (List.mem_cons_of_mem _ hq)
      simp only [leaseLoop, htask, Option.bind_some]
      split_ifs
      · exact ⟨_, rfl⟩
      · obtain ⟨heap', hwrite⟩ := heap.exists_write
          (task.setLeaseTime (fdcsTime + leaseTimeout)) (hlive p List.mem_cons_self)
        have hlive' : ∀ q ∈ rest, (heap'.find? q).isSome := fun q hq => by
          rw [Heap.find?_write hwrite]
          split_ifs
          · rfl
          · exact hrest q hq
        obtain ⟨r, hr⟩ := ih (taskDuplicate - 1) hlive'
        rw [hwrite, Option.bind_some, hr]
        exact ⟨_, rfl⟩
      · exact ih taskDuplicate hrest

theorem exists_idleLoop (fdcsTime leaseTimeout : Int) {ps : List Nat} {heap : Heap FdcsTask}
    (hlive : ∀ p ∈ ps, (heap.find? p).isSome) :
    ∃ r, idleLoop fdcsTime leaseTimeout ps heap = some r := by
  induction ps with
  | nil => exact ⟨_, rfl⟩
  | cons p rest ih =>
      obtain ⟨task, htask⟩ := Option.isSome_iff_exists.mp (hlive p List.mem_cons_self)
      simp only [idleLoop, htask, Option.bind_some]
      split_ifs
      · obtain ⟨heap', hwrite⟩ := heap.exists_write
          (task.setLeaseTime (fdcsTime + leaseTimeout)) (hlive p List.mem_cons_self)
        rw [hwrite]
        exact ⟨_, rfl⟩
      · exact ih fun q hq => hlive q (List.mem_cons_of_mem _ hq)

theorem exists_clearCompletedTasks (hs : Sound s) : ∃ s', clearCompletedTasks s = some s' := by
  obtain ⟨heap, hdelete⟩ := Heap.exists_deleteAll (List.nodup_append.mp hs.owned.nodup).2.1
    fun p hp => hs.owned.find?_isSome (List.mem_append_right _ hp)
  exact ⟨_, congrArg _ hdelete⟩

theorem exists_clearTasks (hs : Sound s) : ∃ s', clearTasks s = some s' := by
  obtain ⟨heap, hdelete⟩ := Heap.exists_deleteAll (List.nodup_append.mp hs.owned.nodup).1
    fun p hp => hs.owned.find?_isSome (List.mem_append_left _ hp)
  exact ⟨_, congrArg _ hdelete⟩

/-- While the ownership holds, no call touches an object that is not there. -/
theorem exists_step (hs : Sound s) (a : Action) : ∃ s', step s a = some s' := by
  have hlive : ∀ p ∈ s.tasks.values, (s.heap.find? p).isSome := fun p hp =>
    hs.owned.find?_isSome (List.mem_append_left _ hp)
  cases a with
  | addTask task => exact ⟨_, rfl⟩
  | updateTasks tasks =>
      obtain ⟨s₁, h₁⟩ := exists_clearTasks hs
      obtain ⟨s₂, h₂⟩ := exists_clearCompletedTasks (sound_clearTasks hs h₁)
      exact ⟨_, Option.bind_eq_some_iff.mpr ⟨s₁, h₁, congrArg _ h₂⟩⟩
  | leaseTasks now =>
      obtain ⟨r, hr⟩ := exists_leaseLoop (now + s.fdcsTimeDiffer) s.settings.leaseTimeout
        s.settings.taskDuplicate hlive
      refine ⟨{ s with heap := r.2 }, ?_⟩
      rw [step, leaseTasks, hr]
      rfl
  | getIdleTask now =>
      obtain ⟨r, hr⟩ := exists_idleLoop (now + s.fdcsTimeDiffer) s.settings.leaseTimeout hlive
      refine ⟨{ s with heap := r.2 }, ?_⟩
      rw [step, getIdleTask, hr]
      rfl
  | taskCompleted taskId stale => exact ⟨_, rfl⟩
  | clearCompletedTasks => exact exists_clearCompletedTasks hs

end Ownership

/-- In every run from an empty store the ownership holds throughout exactly when
no batch of new tasks repeats an id and no task of the table is completed. -/
theorem sound_throughout_iff (settings : Settings) (fdcsTimeDiffer : Int)
    (actions : List Action) :
    Throughout step Sound { settings := settings, fdcsTimeDiffer := fdcsTimeDiffer } actions ↔
      Along step Allowed { settings := settings, fdcsTimeDiffer := fdcsTimeDiffer } actions := by
  refine throughout_iff_along_of_progress (fun s a hs => ?_)
    (sound_initial settings fdcsTimeDiffer) actions
  obtain ⟨s', hstep⟩ := exists_step hs a
  exact ⟨s', hstep, sound_step_iff hs hstep⟩

section Violations

def emptyStore : State where
  settings := { trackerGroup := [], trackerServer := [] }

def someTask : FdcsTask where
  taskId := "a".toList

/-- Two new tasks of one id leave an object nobody owns; completing a task reads
its entry behind the erasure, even where the read yields what stood there. -/
theorem not_sound_throughout :
    ¬Throughout step Sound emptyStore [.updateTasks [someTask, someTask]] ∧
      ¬Throughout step Sound emptyStore
        [.addTask someTask, .taskCompleted someTask.taskId 0] := by
  have hstart : Sound emptyStore := sound_initial _ _
  constructor
  · intro h
    obtain ⟨s', hstep⟩ := exists_step hstart (.updateTasks [someTask, someTask])
    have hallowed := (sound_step_iff hstart hstep).mp (h.1 s' hstep)
    exact absurd hallowed (by decide)
  · intro h
    have hadded := h.1 _ rfl
    have hcompleted := (h.2 _ rfl).1 _ rfl
    have hafter : step (addTask emptyStore someTask).2 (.taskCompleted someTask.taskId 0) =
        some (taskCompleted (addTask emptyStore someTask).2 someTask.taskId 0) := rfl
    have hallowed := (sound_step_iff hadded hafter).mp hcompleted
    exact absurd hallowed (by decide)

end Violations

end FastDCS.TaskOwnership
