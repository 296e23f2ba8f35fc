import FastDCS.TaskOwnership

/-!
The threads of a worker that use task objects: the computing threads hold the
pointer `GetIdleTask` returned while the heart beat thread and the socket thread
delete objects.
-/

namespace FastDCS.TaskThreads

open FastDCS.Strings
open FastDCS.Messages
open FastDCS.Heaps
open FastDCS.Runs

/-- Where a computing thread stands with the pointer it holds. Its tests of
`TasksSize()` change nothing and are left out. -/
inductive ComputingCall where
  | idle
  | computingUDF (task : Nat)
  | taskCompleted (task : Nat)
deriving DecidableEq

/-- Whether `RequestTask` is behind its test of `TasksSize()`. -/
inductive HeartBeatCall where
  | idle
  | requestTask
deriving DecidableEq

/-- Whether `SaveNewTask` is behind its test, and with which tasks. -/
inductive SocketCall where
  | idle
  | updateTasks (newTasks : List FdcsTask)
deriving DecidableEq

def ComputingCall.held : ComputingCall → Option Nat
  | .idle => none
  | .computingUDF task => some task
  | .taskCompleted task => some task

/-- The task store of a worker and its threads. -/
structure State (n : Nat) where
  store : TaskOwnership.State
  computing : Fin n → ComputingCall := fun _ => .idle
  heartBeat : HeartBeatCall := .idle
  socket : SocketCall := .idle

/-- A locked call of one thread, or a write of `ComputingUDF` through its
reference. `now` is what `NowTime()` returns, `stale` what the read of an erased
entry yields. -/
inductive Action (n : Nat) where
  | getIdleTask (thread : Fin n) (now : Int)
  | write (thread : Fin n) (result : FdcsTask → FdcsTask)
  | computed (thread : Fin n)
  | taskCompleted (thread : Fin n) (stale : Nat)
  | requestTask
  | findsNoMaster
  | clearCompletedTasks
  | saveNewTask (newTasks : List FdcsTask)
  | updateTasks

variable {n : Nat}

def State.goTo (s : State n) (thread : Fin n) (call : ComputingCall) : State n :=
  { s with computing := Function.update s.computing thread call }

def State.tasksSize (s : State n) : Nat := s.store.tasks.values.length

def step (s : State n) : Action n → Option (State n)
  | .getIdleTask thread now =>
      match s.computing thread with
      | .idle =>
          (TaskOwnership.getIdleTask s.store now).map fun r =>
            match r.1 with
            | some task => { s with store := r.2 }.goTo thread (.computingUDF task)
            | none => { s with store := r.2 }
      | _ => none
  | .write thread result =>
      match s.computing thread with
      | .computingUDF task => do
          let old ← s.store.heap.find? task
          let heap ← s.store.heap.write task (result old)
          some { s with store := { s.store with heap := heap } }
      | _ => none
  | .computed thread =>
      match s.computing thread with
      | .computingUDF task => some (s.goTo thread (.taskCompleted task))
      | _ => none
  | .taskCompleted thread stale =>
      match s.computing thread with
      | .taskCompleted task =>
          (s.store.heap.find? task).map fun old =>
            { s with store := TaskOwnership.taskCompleted s.store old.taskId stale }.goTo
              thread .idle
      | _ => none
  | .requestTask =>
      if s.heartBeat = .idle then
        if 0 < s.tasksSize then some s else some { s with heartBeat := .requestTask }
      else none
  | .findsNoMaster =>
      if s.heartBeat = .requestTask then some { s with heartBeat := .idle } else none
  | .clearCompletedTasks =>
      if s.heartBeat = .requestTask then
        (TaskOwnership.clearCompletedTasks s.store).map fun store =>
          { s with store := store, heartBeat := .idle }
      else none
  | .saveNewTask newTasks =>
      if s.socket = .idle then
        if 0 < s.tasksSize ∨ newTasks = [] then some s
        else some { s with socket := .updateTasks newTasks }
      else none
  | .updateTasks =>
      match s.socket with
      | .updateTasks newTasks =>
          (TaskOwnership.updateTasks s.store newTasks).map fun store =>
            { s with store := store, socket := .idle }
      | .idle => none

def initial (n : Nat) (settings : Settings) : State n where
  store := { settings := settings }

def State.holds (s : State n) (thread : Fin n) : Option Nat := (s.computing thread).held

/-- No object is used by two computing threads, and none of those they use has
been deleted. -/
structure Exclusive (s : State n) : Prop where
  distinct : ∀ i j task, s.holds i = some task → s.holds j = some task → i = j
  live : ∀ i task, s.holds i = some task → (s.store.heap.find? task).isSome

/-- The first task of the table whose lease has run out. -/
def firstExpired (store : TaskOwnership.State) (now : Int) : Option Nat :=
  store.tasks.values.find? fun task =>
    decide ((TaskOwnership.deref store.heap task).lease < now + store.fdcsTimeDiffer)

/-- The entry of the table under the id that the thread's task has now. -/
def State.entryOf (s : State n) (thread : Fin n) : Option Nat :=
  ((s.holds thread).bind s.store.heap.find?).bind fun task => s.store.tasks.find? task.taskId

/-- The first task whose lease has run out is held by no thread; the id of a
completed task is not that of a task another thread holds, and the entry read
behind its erasure is what stood there. -/
def KeepsExclusive (s : State n) : Action n → Prop
  | .getIdleTask _ now => ∀ task ∈ firstExpired s.store now, ∀ other, s.holds other ≠ some task
  | .taskCompleted thread stale =>
      ∀ entry ∈ s.entryOf thread, stale = entry ∧ ∀ other, other ≠ thread →
        s.holds other ≠ some entry
  | _ => True

instance (s : State n) : ∀ a, Decidable (KeepsExclusive s a)
  | .getIdleTask _ now => inferInstanceAs (Decidable (∀ task ∈ firstExpired s.store now,
      ∀ other, s.holds other ≠ some task))
  | .taskCompleted thread stale => inferInstanceAs (Decidable (∀ entry ∈ s.entryOf thread,
      stale = entry ∧ ∀ other, other ≠ thread → s.holds other ≠ some entry))
  | .write _ _ => isTrue trivial
  | .computed _ => isTrue trivial
  | .requestTask => isTrue trivial
  | .findsNoMaster => isTrue trivial
  | .clearCompletedTasks => isTrue trivial
  | .saveNewTask _ => isTrue trivial
  | .updateTasks => isTrue trivial

section Invariant

variable {s s' : State n}

/-- The pointers of the store are distinct and lead to objects; those held by
threads are in the table, each held once; and `UpdateTasks` finds the table
empty. -/
structure Inv (s : State n) : Prop where
  nodup : (s.store.tasks.values ++ s.store.completedTasks).Nodup
  live : ∀ p ∈ s.store.tasks.values ++ s.store.completedTasks, (s.store.heap.find? p).isSome
  held : ∀ i task, s.holds i = some task → task ∈ s.store.tasks.values
  distinct : ∀ i j task, s.holds i = some task → s.holds j = some task → i = j
  empty : ∀ newTasks, s.socket = .updateTasks newTasks → s.store.tasks.values = []

theorem Inv.exclusive (hs : Inv s) : Exclusive s where
  distinct := hs.distinct
  live i task h := hs.live task (List.mem_append_left _ (hs.held i task h))

theorem idleLoop_spec {fdcsTime leaseTimeout : Int} {ps : List Nat} {heap : Heap FdcsTask}
    {r : Option Nat × Heap FdcsTask}
    (h : TaskOwnership.idleLoop fdcsTime leaseTimeout ps heap = some r) :
    r.1 = ps.find? (fun p => decide ((TaskOwnership.deref heap p).lease < fdcsTime)) ∧
      ∀ q, (r.2.find? q).isSome = (heap.find? q).isSome := by
  induction ps with
  | nil =>
      obtain rfl := Option.some.inj h
      exact ⟨rfl, fun _ => rfl⟩
  | cons p rest ih =>
      rw [TaskOwnership.idleLoop, Option.bind_eq_some_iff] at h
      obtain ⟨task, hfind, h⟩ := h
      rw [List.find?_cons, TaskOwnership.deref_of_some hfind]
      split_ifs at h with hexpired
      · obtain ⟨heap', hwrite, rfl⟩ := Option.map_eq_some_iff.mp h
        refine ⟨by rw [decide_eq_true hexpired], fun q => ?_⟩
        rw [Heap.find?_write hwrite]
        split_ifs with heq
        · rw [heq, hfind]
          rfl
        · rfl
      · rw [decide_eq_false hexpired]
        exact ih h

theorem of_getIdleTask {thread : Fin n} {now : Int}
    (h : step s (.getIdleTask thread now) = some s') :
    s.computing thread = .idle ∧ ∃ heap,
      TaskOwnership.getIdleTask s.store now =
        some (firstExpired s.store now, { s.store with heap := heap }) ∧
      (∀ p, (heap.find? p).isSome = (s.store.heap.find? p).isSome) ∧
      s' = match firstExpired s.store now with
        | some task => { s with store := { s.store with heap := heap } }.goTo thread
            (.computingUDF task)
        | none => { s with store := { s.store with heap := heap } } := by
  rw [step] at h
  cases hcall : s.computing thread with
  | computingUDF task => simp [hcall] at h
  | taskCompleted task => simp [hcall] at h
  | idle =>
      simp only [hcall] at h
      obtain ⟨r, hget, rfl⟩ := Option.map_eq_some_iff.mp h
      obtain ⟨r', hloop, rfl⟩ := Option.map_eq_some_iff.mp hget
      obtain ⟨hfound, hsame⟩ := idleLoop_spec hloop
      have hfirst : r'.1 = firstExpired s.store now := hfound
      rw [hfirst] at hget ⊢
      exact ⟨rfl, r'.2, hget, hsame, rfl⟩

theorem of_write {thread : Fin n} {result : FdcsTask → FdcsTask}
    (h : step s (.write thread result) = some s') :
    ∃ task old heap, s.store.heap.find? task = some old ∧
      s.store.heap.write task (result old) = some heap ∧
      s' = { s with store := { s.store with heap := heap } } := by
  rw [step] at h
  cases hcall : s.computing thread with
  | idle => simp [hcall] at h
  | taskCompleted task => simp [hcall] at h
  | computingUDF task =>
      simp only [hcall, Option.bind_eq_bind] at h
      obtain ⟨old, hfind, h⟩ := Option.bind_eq_some_iff.mp h
      obtain ⟨heap, hwrite, h⟩ := Option.bind_eq_some_iff.mp h
      exact ⟨task, old, heap, hfind, hwrite, (Option.some.inj h).symm⟩

theorem of_computed {thread : Fin n} (h : step s (.computed thread) = some s') :
    ∃ task, s.computing thread = .computingUDF task ∧
      s' = s.goTo thread (.taskCompleted task) := by
  rw [step] at h
  cases hcall : s.computing thread with
  | idle => simp [hcall] at h
  | taskCompleted task => simp [hcall] at h
  | computingUDF task =>
      simp only [hcall] at h
      exact ⟨task, rfl, (Option.some.inj h).symm⟩

theorem of_taskCompleted {thread : Fin n} {stale : Nat}
    (h : step s (.taskCompleted thread stale) = some s') :
    ∃ task old, s.holds thread = some task ∧ s.store.heap.find? task = some old ∧
      s.entryOf thread = s.store.tasks.find? old.taskId ∧
      s' = { s with store := TaskOwnership.taskCompleted s.store old.taskId stale }.goTo
        thread .idle := by
  rw [step] at h
  cases hcall : s.computing thread with
  | idle => simp [hcall] at h
  | computingUDF task => simp [hcall] at h
  | taskCompleted task =>
      simp only [hcall] at h
      obtain ⟨old, hfind, rfl⟩ := Option.map_eq_some_iff.mp h
      have hheld : s.holds thread = some task := by
        rw [State.holds, hcall]
        rfl
      refine ⟨task, old, hheld, hfind, ?_, rfl⟩
      rw [State.entryOf, hheld, Option.bind_some, hfind, Option.bind_some]

theorem holds_goTo (s : State n) (thread other : Fin n) (call : ComputingCall) :
    (s.goTo thread call).holds other = if other = thread then call.held else s.holds other := by
  rw [State.holds, State.goTo]
  dsimp only
  rw [Function.update_apply]
  split_ifs <;> rfl

/-- Writing to objects allocates and deletes none. -/
theorem Inv.with_heap (hs : Inv s) {heap : Heap FdcsTask}
    (hsame : ∀ p, (heap.find? p).isSome = (s.store.heap.find? p).isSome) :
    Inv { s with store := { s.store with heap := heap } } where
  nodup := hs.nodup
  live p hp := (hsame p).trans (hs.live p hp)
  held := hs.held
  distinct := hs.distinct
  empty := hs.empty

theorem inv_getIdleTask (hs : Inv s) {thread : Fin n} {now : Int}
    (hkeeps : KeepsExclusive s (.getIdleTask thread now))
    (h : step s (.getIdleTask thread now) = some s') : Inv s' := by
  obtain ⟨_, heap, _, hsame, rfl⟩ := of_getIdleTask h
  have hs' := hs.with_heap hsame
  cases hfirst : firstExpired s.store now with
  | none => exact hs'
  | some task =>
      have hmem : task ∈ s.store.tasks.values := List.mem_of_find?_eq_some hfirst
      have hfree : ∀ other, s.holds other ≠ some task := hkeeps task hfirst
      refine ⟨hs'.nodup, hs'.live, fun i p hi => ?_, fun i j p hi hj => ?_, hs'.empty⟩
      · rw [holds_goTo] at hi
        split_ifs at hi
        · cases hi
          exact hmem
        · exact hs.held i p hi
      · rw [holds_goTo] at hi hj
        split_ifs at hi hj with heqi heqj heqj
        · rw [heqi, heqj]
        · cases hi
          exact absurd hj (hfree j)
        · cases hj
          exact absurd hi (hfree i)
        · exact hs.distinct i j p hi hj

theorem inv_write (hs : Inv s) {thread : Fin n} {result : FdcsTask → FdcsTask}
    (h : step s (.write thread result) = some s') : Inv s' := by
  obtain ⟨task, old, heap, hfind, hwrite, rfl⟩ := of_write h
  refine hs.with_heap fun p => ?_
  rw [Heap.find?_write hwrite]
  split_ifs with heq
  · rw [heq, hfind]
    rfl
  · rfl

theorem inv_computed (hs : Inv s) {thread : Fin n} (h : step s (.computed thread) = some s') :
    Inv s' := by
  obtain ⟨task, hcall, rfl⟩ := of_computed h
  have hsame : ∀ other, (s.goTo thread (.taskCompleted task)).holds other = s.holds other := by
    intro other
    rw [holds_goTo]
    split_ifs with heq
    · rw [heq, State.holds, hcall]
      rfl
    · rfl
  refine ⟨hs.nodup, hs.live, fun i p hi => ?_, fun i j p hi hj => ?_, hs.empty⟩
  · rw [hsame] at hi
    exact hs.held i p hi
  · rw [hsame] at hi hj
    exact hs.distinct i j p hi hj

theorem inv_taskCompleted (hs : Inv s) {thread : Fin n} {stale : Nat}
    (hkeeps : KeepsExclusive s (.taskCompleted thread stale))
    (h : step s (.taskCompleted thread stale) = some s') : Inv s' := by
  obtain ⟨task, old, hheld, hfind, hentry, rfl⟩ := of_taskCompleted h
  have hothers : ∀ {i p} {store : TaskOwnership.State},
      ({ s with store := store }.goTo thread .idle).holds i = some p →
        i ≠ thread ∧ s.holds i = some p := by
    intro i p store hi
    rw [holds_goTo] at hi
    split_ifs at hi with heq
    · cases hi
    · exact ⟨heq, hi⟩
  rw [TaskOwnership.taskCompleted]
  cases hfound : s.store.tasks.find? old.taskId with
  | none =>
      refine ⟨hs.nodup, hs.live, fun i p hi => ?_, fun i j p hi hj => ?_, hs.empty⟩
      · exact hs.held i p (hothers hi).2
      · exact hs.distinct i j p (hothers hi).2 (hothers hj).2
  | some entry =>
      obtain ⟨rfl, hfree⟩ := hkeeps entry (hentry.trans hfound)
      have hmoves := OrderedMap.values_erase_perm hfound
      -- the pointer moves from one container to the other
      have hperm : (s.store.tasks.values ++ s.store.completedTasks).Perm
          ((s.store.tasks.erase old.taskId).values ++
            (s.store.completedTasks ++ [stale])) := by
        refine (hmoves.append_right _).trans ?_
        rw [← List.append_assoc]
        exact (List.perm_append_singleton _ _).symm
      refine ⟨hperm.nodup_iff.mp hs.nodup, fun q hq => hs.live q (hperm.mem_iff.mpr hq),
        fun i p hi => ?_, fun i j p hi hj => ?_, fun newTasks hsocket => ?_⟩
      · obtain ⟨hne, hold⟩ := hothers hi
        have hmem := hmoves.mem_iff.mp (hs.held i p hold)
        refine (List.mem_cons.mp hmem).resolve_left ?_
        rintro rfl
        exact hfree i hne hold
      · exact hs.distinct i j p (hothers hi).2 (hothers hj).2
      · have hempty := hs.empty newTasks hsocket
        have hmem := hs.held thread task hheld
        rw [hempty] at hmem
        cases hmem

theorem inv_clearCompletedTasks (hs : Inv s) (h : step s .clearCompletedTasks = some s') :
    Inv s' := by
  rw [step] at h
  split_ifs at h
  obtain ⟨store, hclear, rfl⟩ := Option.map_eq_some_iff.mp h
  obtain ⟨heap, hdelete, rfl⟩ := Option.map_eq_some_iff.mp hclear
  obtain ⟨htasks, _, hdisjoint⟩ := List.nodup_append.mp hs.nodup
  refine ⟨by simpa using htasks, fun p hp => ?_, hs.held, hs.distinct, hs.empty⟩
  rw [List.append_nil] at hp
  change (heap.find? p).isSome
  rw [Heap.find?_deleteAll hdelete, if_neg fun hmem => hdisjoint p hp p hmem rfl]
  exact hs.live p (List.mem_append_left _ hp)

/-- No thread holds a task while the table is empty. -/
theorem Inv.holds_eq_none (hs : Inv s) (hempty : s.store.tasks.values = []) (i : Fin n) :
    s.holds i = none := by
  cases hi : s.holds i with
  | none => rfl
  | some task =>
      have hmem := hs.held i task hi
      rw [hempty] at hmem
      cases hmem

/-- The socket thread updates the tasks with those it has a call for. -/
theorem eq_of_updateTasks (h : step s .updateTasks = some s') :
    ∃ newTasks store, s.socket = .updateTasks newTasks ∧
      TaskOwnership.step s.store (.updateTasks newTasks) = some store ∧
      s' = { s with store := store, socket := .idle } := by
  rw [step] at h
  cases hsocket : s.socket with
  | idle => simp [hsocket] at h
  | updateTasks newTasks =>
      simp only [hsocket] at h
      obtain ⟨store, hupdate, rfl⟩ := Option.map_eq_some_iff.mp h
      exact ⟨newTasks, store, rfl, hupdate, rfl⟩

theorem inv_updateTasks (hs : Inv s) (h : step s .updateTasks = some s') : Inv s' := by
  obtain ⟨newTasks, store, hsocket, hupdate, rfl⟩ := eq_of_updateTasks h
  have hnone := hs.holds_eq_none (hs.empty newTasks hsocket)
  have hplaced : TaskOwnership.Placed s.store := by
    refine ⟨fun taskId p hfind => ?_, hs.nodup, hs.live⟩
    have hmem := OrderedMap.mem_values.mpr ⟨taskId, hfind⟩
    rw [hs.empty newTasks hsocket] at hmem
    cases hmem
  have hplaced' := (TaskOwnership.step_refines (a := .updateTasks newTasks) hplaced trivial
    hupdate).1
  refine ⟨hplaced'.nodup, hplaced'.live, fun i task hi => ?_, fun i j task hi _ => ?_,
    fun _ hidle => ?_⟩
  · exact absurd (hi.symm.trans (hnone i)) (Option.some_ne_none task)
  · exact absurd (hi.symm.trans (hnone i)) (Option.some_ne_none task)
  · cases hidle

theorem inv_step (hs : Inv s) {a : Action n} (hkeeps : KeepsExclusive s a)
    (h : step s a = some s') : Inv s' := by
  cases a with
  | getIdleTask thread now => exact inv_getIdleTask hs hkeeps h
  | write thread result => exact inv_write hs h
  | computed thread => exact inv_computed hs h
  | taskCompleted thread stale => exact inv_taskCompleted hs hkeeps h
  | requestTask =>
      rw [step] at h
      split_ifs at h
      · cases h
        exact hs
      · cases h
        exact ⟨hs.nodup, hs.live, hs.held, hs.distinct, hs.empty⟩
  | findsNoMaster =>
      rw [step] at h
      split_ifs at h
      cases h
      exact ⟨hs.nodup, hs.live, hs.held, hs.distinct, hs.empty⟩
  | clearCompletedTasks => exact inv_clearCompletedTasks hs h
  | saveNewTask newTasks =>
      rw [step] at h
      split_ifs at h with hidle htest
      · cases h
        exact hs
      · cases h
        refine ⟨hs.nodup, hs.live, hs.held, hs.distinct, fun _ _ => ?_⟩
        rw [not_or, State.tasksSize, not_lt, Nat.le_zero, List.length_eq_zero_iff] at htest
        exact htest.1
  | updateTasks => exact inv_updateTasks hs h

theorem inv_initial (n : Nat) (settings : Settings) : Inv (initial n settings) where
  nodup := List.nodup_nil
  live _ hp := by cases hp
  held _ _ h := by cases h
  distinct _ _ _ h := by cases h
  empty _ h := by cases h

/-- In every run whose steps meet the condition no task object is shared by two
computing threads or deleted while one holds it. -/
theorem exclusive_along {settings : Settings} {as : List (Action n)}
    (hkeeps : Along step KeepsExclusive (initial n settings) as)
    (hrun : run step (initial n settings) as = some s) : Exclusive s :=
  (invariant_along (fun _ _ _ hs hallowed h => inv_step hs hallowed h) (inv_initial n settings)
    hkeeps hrun).exclusive

def twoTasks : List FdcsTask := [{ taskId := "a".toList }, { taskId := "b".toList }]

def leaseOfTen : Settings where
  trackerGroup := []
  trackerServer := []

/-- Each of two threads completes a task within its lease. -/
def completingRun : List (Action 2) :=
  [.saveNewTask twoTasks, .updateTasks, .getIdleTask 0 100, .getIdleTask 1 105, .write 0 id,
    .computed 0, .taskCompleted 0 0, .computed 1, .taskCompleted 1 1, .requestTask,
    .clearCompletedTasks]

theorem completingRun_exclusive :
    ∃ s, run step (initial 2 leaseOfTen) completingRun = some s ∧ Exclusive s := by
  have hruns : (run step (initial 2 leaseOfTen) completingRun).isSome = true := by decide +kernel
  obtain ⟨s, hrun⟩ := Option.isSome_iff_exists.mp hruns
  exact ⟨s, hrun, exclusive_along (by decide +kernel) hrun⟩

/-- The lease of a task runs out while a thread computes it. -/
def sharingRun : List (Action 2) :=
  [.saveNewTask [{ taskId := "a".toList }], .updateTasks, .getIdleTask 0 100, .getIdleTask 1 111]

/-- Two threads hold the same task, and when the first one has completed it, it is
deleted under the second one. -/
theorem not_every_run_exclusive :
    (¬∀ (n : Nat) (settings : Settings) (as : List (Action n)) (s : State n),
        run step (initial n settings) as = some s →
          ∀ i j task, s.holds i = some task → s.holds j = some task → i = j) ∧
      ¬∀ (n : Nat) (settings : Settings) (as : List (Action n)) (s : State n),
        run step (initial n settings) as = some s →
          ∀ i task, s.holds i = some task → (s.store.heap.find? task).isSome := by
  constructor
  · intro hall
    have hlast : (run step (initial 2 leaseOfTen) sharingRun).map
        (fun s => (s.holds 0, s.holds 1)) = some (some 0, some 0) := by
      decide +kernel
    obtain ⟨s, hrun, hs⟩ := Option.map_eq_some_iff.mp hlast
    obtain ⟨hfirst, hsecond⟩ := Prod.mk.inj hs
    exact absurd (hall 2 _ _ s hrun 0 1 0 hfirst hsecond) (by decide)
  · intro hall
    have hlast : (run step (initial 2 leaseOfTen) (sharingRun ++
        [.computed 0, .taskCompleted 0 0, .requestTask, .clearCompletedTasks])).map
          (fun s => (s.holds 1, (s.store.heap.find? 0).isSome)) = some (some 0, false) := by
      decide +kernel
    obtain ⟨s, hrun, hs⟩ := Option.map_eq_some_iff.mp hlast
    obtain ⟨hheld, hdeleted⟩ := Prod.mk.inj hs
    exact Bool.false_ne_true (hdeleted.symm.trans (hall 2 _ _ s hrun 1 0 hheld))

end Invariant

section Leases

variable {s s' : State n}

/-- `ComputingUDF` keeps the id of its task, and the entry read behind its erasure
is what stood there. -/
def KeepsIds (s : State n) : Action n → Prop
  | .write _ result => ∀ task, (result task).taskId = task.taskId
  | .taskCompleted thread stale => ∀ entry ∈ s.entryOf thread, stale = entry
  | _ => True

/-- `GetIdleTask` finds no lease run out of a task that a thread still holds. -/
def KeepsLeases (s : State n) : Action n → Prop
  | .getIdleTask _ now => ∀ task ∈ firstExpired s.store now, ∀ other, s.holds other ≠ some task
  | _ => True

/-- With the ids kept, the entry that a thread completes is its own. -/
theorem entryOf_eq (hs : Inv s) (hplaced : TaskOwnership.Placed s.store) {thread : Fin n}
    {task : Nat} (hheld : s.holds thread = some task) : s.entryOf thread = some task := by
  obtain ⟨taskId, hfind⟩ := OrderedMap.mem_values.mp (hs.held thread task hheld)
  obtain ⟨old, hold, hid⟩ := hplaced.keyed taskId task hfind
  rw [State.entryOf, hheld, Option.bind_some, hold, Option.bind_some, hid, hfind]

theorem keepsExclusive_iff (hs : Inv s) (hplaced : TaskOwnership.Placed s.store) {a : Action n}
    (hids : KeepsIds s a) : KeepsExclusive s a ↔ KeepsLeases s a := by
  cases a with
  | taskCompleted thread stale =>
      refine iff_of_true (fun entry hentry => ⟨hids entry hentry, fun other hne hother => ?_⟩)
        trivial
      cases hheld : s.holds thread with
      | none =>
          rw [State.entryOf, hheld] at hentry
          cases hentry
      | some task =>
          have hown := entryOf_eq hs hplaced hheld
          have hsame : some entry = some task := hentry.symm.trans hown
          exact hne (hs.distinct other thread task (hother.trans hsame) hheld)
  | getIdleTask thread now => exact Iff.rfl
  | write thread result => exact Iff.rfl
  | computed thread => exact Iff.rfl
  | requestTask => exact Iff.rfl
  | findsNoMaster => exact Iff.rfl
  | clearCompletedTasks => exact Iff.rfl
  | saveNewTask newTasks => exact Iff.rfl
  | updateTasks => exact Iff.rfl

/-- A lease that has run out too early makes two threads hold the task. -/
theorem keepsLeases_of_exclusive {a : Action n} (h : step s a = some s') (hs' : Exclusive s') :
    KeepsLeases s a := by
  cases a with
  | getIdleTask thread now =>
      intro task hexpired other hheld
      obtain ⟨hidle, heap, _, _, rfl⟩ := of_getIdleTask h
      rw [Option.mem_def.mp hexpired] at hs'
      have hne : other ≠ thread := by
        rintro rfl
        rw [State.holds, hidle] at hheld
        cases hheld
      refine hne (hs'.distinct other thread task ?_ ?_)
      · rw [holds_goTo, if_neg hne]
        exact hheld
      · rw [holds_goTo, if_pos rfl]
        rfl
  | write thread result => trivial
  | computed thread => trivial
  | taskCompleted thread stale => trivial
  | requestTask => trivial
  | findsNoMaster => trivial
  | clearCompletedTasks => trivial
  | saveNewTask newTasks => trivial
  | updateTasks => trivial

theorem placed_step (hs : TaskOwnership.Placed s.store) {a : Action n} (hids : KeepsIds s a)
    (h : step s a = some s') : TaskOwnership.Placed s'.store := by
  cases a with
  | getIdleTask thread now =>
      obtain ⟨_, heap, hget, _, rfl⟩ := of_getIdleTask h
      have hplaced := (TaskOwnership.step_refines (a := .getIdleTask now) hs trivial
        (congrArg (Option.map Prod.snd) hget)).1
      cases firstExpired s.store now with
      | none => exact hplaced
      | some task => exact hplaced
  | write thread result =>
      obtain ⟨task, old, heap, hfind, hwrite, rfl⟩ := of_write h
      refine TaskOwnership.placed_of_taskIds_eq hs fun p => ?_
      rw [Heap.find?_write hwrite]
      split_ifs with heq
      · rw [heq, hfind]
        exact congrArg some (hids old)
      · rfl
  | computed thread =>
      obtain ⟨task, _, rfl⟩ := of_computed h
      exact hs
  | taskCompleted thread stale =>
      obtain ⟨task, old, _, _, hentry, rfl⟩ := of_taskCompleted h
      refine (TaskOwnership.placed_taskCompleted hs fun p hp => hids p ?_).1
      rw [hentry]
      exact hp
  | requestTask =>
      rw [step] at h
      split_ifs at h
      · cases h
        exact hs
      · cases h
        exact hs
  | findsNoMaster =>
      rw [step] at h
      split_ifs at h
      cases h
      exact hs
  | clearCompletedTasks =>
      rw [step] at h
      split_ifs at h
      obtain ⟨store, hclear, rfl⟩ := Option.map_eq_some_iff.mp h
      exact (TaskOwnership.placed_clearCompletedTasks hs hclear).1
  | saveNewTask newTasks =>
      rw [step] at h
      split_ifs at h
      · cases h
        exact hs
      · cases h
        exact hs
  | updateTasks =>
      obtain ⟨newTasks, store, -, hupdate, rfl⟩ := eq_of_updateTasks h
      exact (TaskOwnership.step_refines (a := .updateTasks newTasks) hs trivial hupdate).1

/-- Where the ids are kept, it is the leases alone that decide. -/
theorem exclusive_throughout_iff {settings : Settings} {as : List (Action n)}
    (hids : Along step KeepsIds (initial n settings) as)
    (hrun : run step (initial n settings) as = some s) :
    Throughout step Exclusive (initial n settings) as ↔
      Along step KeepsLeases (initial n settings) as := by
  have hinit : Inv (initial n settings) ∧ TaskOwnership.Placed (initial n settings).store :=
    ⟨inv_initial n settings, (TaskOwnership.sound_initial settings 0).placed⟩
  have hstep : ∀ (s : State n) a s', (Inv s ∧ TaskOwnership.Placed s.store) → KeepsIds s a →
      step s a = some s' → (Exclusive s' ↔ KeepsLeases s a) ∧
        (KeepsLeases s a → Inv s' ∧ TaskOwnership.Placed s'.store) := by
    rintro s a s' ⟨hs, hplaced⟩ hkept h
    have hinv : KeepsLeases s a → Inv s' := fun hleases =>
      inv_step hs ((keepsExclusive_iff hs hplaced hkept).mpr hleases) h
    refine ⟨?_, fun hleases => ⟨hinv hleases, placed_step hplaced hkept h⟩⟩
    constructor
    · exact keepsLeases_of_exclusive h
    · intro hleases
      exact (hinv hleases).exclusive
  exact throughout_iff_along_under hstep hinit hids hrun

end Leases

end FastDCS.TaskThreads
