import FastDCS.TaskExchange

/-!
How often the results of a task are accepted on a primary master. The run of
both threads is recorded with the ids added, the messages received and every
lease check of a report.
-/

namespace FastDCS.Completion

open FastDCS.Strings
open FastDCS.Messages
open FastDCS.MasterTasks
open FastDCS.TaskExchange

/-- A report whose task was found, the lease the table held for it and the time
it was compared with. -/
structure LeaseCheck where
  report : FdcsTask
  lease : Int
  fdcsTime : Int

structure History where
  state : State
  added : List Str := []
  received : List TrackerProtocol := []
  checks : List LeaseCheck := []

def addTaskArgument (s : State) : Action → List FdcsTask
  | .exchange _ _ =>
      match s.exchange.call with
      | .addTask (task :: _) => [task]
      | _ => []
  | _ => []

def addedBy (s : State) (a : Action) : List Str :=
  ((addTaskArgument s a).filter fun task => (s.env.addTask task).1).map FdcsTask.taskId

def receivedBy : Action → List TrackerProtocol
  | .receive proto => [proto]
  | _ => []

def checkedBy (s : State) : Action → List LeaseCheck
  | .socket now =>
      match s.socket with
      | .checkLease report _ =>
          match s.env.findTask report.taskId with
          | some task => [⟨report, task.lease, s.env.fdcsTime now⟩]
          | none => []
      | _ => []
  | _ => []

def step (pb : Protobuf) (h : History) (a : Action) : Option History :=
  (TaskExchange.step pb h.state a).map fun s =>
    { state := s
      added := h.added ++ addedBy h.state a
      received := h.received ++ receivedBy a
      checks := h.checks ++ checkedBy h.state a }

def initial (settings : Settings) : History where
  state := TaskExchange.initial settings

/-- `AddTask` is called with ids that were never added before. -/
def FreshIds (h : History) (a : Action) : Prop :=
  ∀ task ∈ addTaskArgument h.state a, task.taskId ∉ h.added

instance (h : History) (a : Action) : Decidable (FreshIds h a) := by
  unfold FreshIds
  infer_instance

structure Inv (pb : Protobuf) (h : History) : Prop where
  /-- Only added ids are in the table. -/
  active : ∀ taskId task, h.state.env.tasks.find? taskId = some task → taskId ∈ h.added
  /-- A moved task was added and is out of the table for good. -/
  settled : ∀ task ∈ h.state.moved,
    task.taskId ∈ h.added ∧ h.state.env.tasks.find? task.taskId = none
  once : (h.state.moved.map FdcsTask.taskId).Nodup
  /-- A report about to be completed stands in the table and passed its check. -/
  passing : ∀ report rest, h.state.socket = .taskCompleted report rest →
    h.state.env.tasks.find? report.taskId = some report.clearLeaseTime ∧
      ∃ check ∈ h.checks, check.report = report ∧ check.fdcsTime ≤ check.lease
  accepted : ∀ task ∈ h.state.moved, ∃ check ∈ h.checks,
    task = check.report.clearLeaseTime ∧ check.fdcsTime ≤ check.lease
  reported : ∀ report ∈ pendingReports h.state.socket, ∃ proto ∈ h.received,
    report ∈ tasksUnder pb keyValuePairsTaskComplete proto
  checkReported : ∀ check ∈ h.checks, ∃ proto ∈ h.received,
    check.report ∈ tasksUnder pb keyValuePairsTaskComplete proto

variable {pb : Protobuf}

theorem inv_initial (settings : Settings) : Inv pb (initial settings) where
  active _ _ h := nomatch h
  settled _ h := nomatch h
  once := List.nodup_nil
  passing _ _ h := nomatch h
  accepted _ h := nomatch h
  reported _ h := nomatch h
  checkReported _ h := nomatch h

theorem inv_addTask {h : History} (hinv : Inv pb h) {task : FdcsTask}
    (hfresh : task.taskId ∉ h.added) (thread : Exchange) :
    Inv pb { h with
      state := { h.state with env := (h.state.env.addTask task).2, exchange := thread }
      added := h.added ++ [task.taskId] } := by
  have hnone : h.state.env.tasks.find? task.taskId = none := by
    cases hfind : h.state.env.tasks.find? task.taskId with
    | none => rfl
    | some old => exact absurd (hinv.active _ _ hfind) hfresh
  have hfind : ∀ taskId ∈ h.added,
      (h.state.env.addTask task).2.tasks.find? taskId = h.state.env.tasks.find? taskId := by
    intro taskId hmem
    have hne : taskId ≠ task.taskId := fun heq => hfresh (heq ▸ hmem)
    rw [Enviroment.addTask_of_none hnone, OrderedMap.find?_insert, if_neg hne]
  constructor
  · intro taskId stored hstored
    rw [Enviroment.addTask_of_none hnone, OrderedMap.find?_insert] at hstored
    split_ifs at hstored with heq
    · simp [heq]
    · exact List.mem_append_left _ (hinv.active _ _ hstored)
  · intro moved hmoved
    obtain ⟨hadded, habsent⟩ := hinv.settled moved hmoved
    exact ⟨List.mem_append_left _ hadded, (hfind _ hadded).trans habsent⟩
  · exact hinv.once
  · intro report rest hsocket
    obtain ⟨hstored, hcheck⟩ := hinv.passing report rest hsocket
    exact ⟨(hfind _ (hinv.active _ _ hstored)).trans hstored, hcheck⟩
  · exact hinv.accepted
  · exact hinv.reported
  · exact hinv.checkReported

theorem inv_exchange {h : History} (hinv : Inv pb h) {now : Int} {imported : List FdcsTask}
    (hfresh : FreshIds h (.exchange now imported)) {env : Enviroment} {thread : Exchange}
    (hstep : exchangeStep true now imported h.state.env h.state.exchange = some (env, thread)) :
    Inv pb { h with
      state := { h.state with env := env, exchange := thread }
      added := h.added ++ addedBy h.state (.exchange now imported) } := by
  rcases exchangeStep_cases hstep with ⟨rfl, hcall⟩ | ⟨hcall, rfl, _⟩ |
    ⟨task, rest, hcall, rfl, rfl⟩
  · have hnone : addedBy h.state (.exchange now imported) = [] := by
      simp [addedBy, addTaskArgument]
    rw [hnone, List.append_nil]
    exact ⟨hinv.active, hinv.settled, hinv.once, hinv.passing, hinv.accepted, hinv.reported,
      hinv.checkReported⟩
  · have hnone : addedBy h.state (.exchange now imported) = [] := by
      simp [addedBy, addTaskArgument, hcall]
    rw [hnone, List.append_nil]
    exact ⟨hinv.active, hinv.settled, hinv.once, hinv.passing, hinv.accepted, hinv.reported,
      hinv.checkReported⟩
  · have hnew : task.taskId ∉ h.added := by
      simpa [FreshIds, addTaskArgument, hcall] using hfresh
    have hadded : addedBy h.state (.exchange now imported) = [task.taskId] := by
      cases hfind : h.state.env.tasks.find? task.taskId with
      | none => simp [addedBy, addTaskArgument, hcall, Enviroment.addTask_of_none hfind]
      | some old => exact absurd (hinv.active _ _ hfind) hnew
    rw [hadded]
    exact inv_addTask hinv hnew _

theorem checkedBy_report {s : State} {a : Action} {check : LeaseCheck}
    (h : check ∈ checkedBy s a) : check.report ∈ pendingReports s.socket := by
  cases a with
  | socket now =>
      obtain ⟨env, exchange, socket, moved⟩ := s
      cases socket with
      | checkLease report rest =>
          simp only [checkedBy] at h
          split at h
          · rw [List.mem_singleton.mp h]
            exact List.mem_cons_self
          · cases h
      | _ => cases h
  | _ => cases h

theorem inv_socket {h : History} (hinv : Inv pb h) {now : Int} {s : State}
    (hstep : socketStep now h.state = some s) :
    Inv pb { h with state := s, checks := h.checks ++ checkedBy h.state (.socket now) } := by
  have hchecks : ∀ check ∈ h.checks ++ checkedBy h.state (.socket now),
      ∃ proto ∈ h.received, check.report ∈ tasksUnder pb keyValuePairsTaskComplete proto := by
    intro check hcheck
    rcases List.mem_append.mp hcheck with hold | hnew
    · exact hinv.checkReported check hold
    · exact hinv.reported _ (checkedBy_report hnew)
  have hearlier : ∀ check ∈ h.checks, check ∈ h.checks ++ checkedBy h.state (.socket now) :=
    fun check hcheck => List.mem_append_left _ hcheck
  have haccepted : ∀ task ∈ h.state.moved,
      ∃ check ∈ h.checks ++ checkedBy h.state (.socket now),
        task = check.report.clearLeaseTime ∧ check.fdcsTime ≤ check.lease := by
    intro task hmoved
    obtain ⟨check, hcheck, heq, hle⟩ := hinv.accepted task hmoved
    exact ⟨check, hearlier check hcheck, heq, hle⟩
  rcases socketStep_cases hstep with ⟨call, rfl, hcompleting, _, hsub⟩ |
    ⟨report, rest, task, hsocket, hfind, hle, rfl⟩ | ⟨report, rest, hsocket, rfl⟩
  · refine ⟨hinv.active, hinv.settled, hinv.once, ?_, haccepted, ?_, hchecks⟩
    · rintro report rest rfl
      cases hcompleting
    · exact fun report hreport => hinv.reported report (hsub hreport)
  · -- the report passes its check and is copied over the task
    have hkeys : ∀ taskId, (h.state.env.modifyTask report.taskId
        fun _ => report.clearLeaseTime).tasks.find? taskId =
        if taskId = report.taskId then some report.clearLeaseTime
        else h.state.env.tasks.find? taskId := by
      intro taskId
      rw [Enviroment.modifyTask, OrderedMap.find?_modify, hfind]
      split_ifs <;> rfl
    refine ⟨?_, ?_, hinv.once, ?_, haccepted, ?_, hchecks⟩
    · intro taskId stored hstored
      rw [hkeys] at hstored
      split_ifs at hstored with heq
      · rw [heq]
        exact hinv.active _ _ hfind
      · exact hinv.active _ _ hstored
    · intro moved hmoved
      obtain ⟨hadded, habsent⟩ := hinv.settled moved hmoved
      have hne : moved.taskId ≠ report.taskId := by
        intro heq
        rw [heq, hfind] at habsent
        cases habsent
      exact ⟨hadded, by rw [hkeys, if_neg hne, habsent]⟩
    · intro report' rest' hsocket'
      obtain ⟨rfl, rfl⟩ := SocketCall.taskCompleted.inj hsocket'
      refine ⟨by rw [hkeys, if_pos rfl], ⟨report, task.lease, h.state.env.fdcsTime now⟩, ?_,
        rfl, hle⟩
      apply List.mem_append_right
      simp [checkedBy, hsocket, Enviroment.findTask, hfind]
    · intro report' hreport'
      apply hinv.reported
      rw [hsocket]
      exact hreport'
  · obtain ⟨hfind, check, hcheck, hreport, hle⟩ := hinv.passing report rest hsocket
    have hid := hinv.active _ _ hfind
    simp only [Enviroment.taskCompleted_of_some hfind, hfind, Option.toList_some]
    refine ⟨?_, ?_, ?_, ?_, ?_, ?_, hchecks⟩
    · intro taskId stored hstored
      rw [OrderedMap.find?_erase] at hstored
      split_ifs at hstored
      exact hinv.active _ _ hstored
    · intro moved hmoved
      rw [OrderedMap.find?_erase]
      rcases List.mem_append.mp hmoved with hold | hnew
      · obtain ⟨hadded, habsent⟩ := hinv.settled moved hold
        exact ⟨hadded, by rw [habsent, ite_self]⟩
      · rw [List.mem_singleton.mp hnew]
        exact ⟨hid, if_pos rfl⟩
    · -- a task in the table was not moved before
      rw [List.map_append, List.nodup_append]
      refine ⟨hinv.once, List.nodup_singleton _, ?_⟩
      intro taskId hold taskId' hnew heq
      obtain ⟨moved, hmoved, rfl⟩ := List.mem_map.mp hold
      have habsent := (hinv.settled moved hmoved).2
      rw [heq, List.mem_singleton.mp hnew] at habsent
      exact absurd (habsent.symm.trans hfind) (by simp)
    · intro report' rest' hsocket'
      cases hsocket'
    · intro moved hmoved
      rcases List.mem_append.mp hmoved with hold | hnew
      · exact haccepted moved hold
      · rw [List.mem_singleton.mp hnew]
        exact ⟨check, hearlier check hcheck, by rw [hreport], hle⟩
    · intro report' hreport'
      apply hinv.reported
      rw [hsocket]
      exact List.mem_cons_of_mem _ hreport'

theorem inv_lease {h : History} (hinv : Inv pb h) {now : Int} {quota : Nat}
    (hidle : h.state.socket = .idle) :
    Inv pb { h with
      state := { h.state with env := (leaseFirst h.state.env now quota).2 } } := by
  have hkeys : ∀ taskId, (leaseFirst h.state.env now quota).2.tasks.find? taskId = none ↔
      h.state.env.tasks.find? taskId = none := by
    intro taskId
    rw [← OrderedMap.not_mem_keys_iff, ← OrderedMap.not_mem_keys_iff, leaseFirst,
      OrderedMap.keys_updateFirst]
  refine ⟨?_, ?_, hinv.once, ?_, hinv.accepted, hinv.reported, hinv.checkReported⟩
  · intro taskId task hfind
    cases hold : h.state.env.tasks.find? taskId with
    | none =>
        rw [(hkeys taskId).mpr hold] at hfind
        cases hfind
    | some old => exact hinv.active _ _ hold
  · intro task hmoved
    obtain ⟨hadded, habsent⟩ := hinv.settled task hmoved
    exact ⟨hadded, (hkeys _).mpr habsent⟩
  · intro report rest hsocket
    rw [hidle] at hsocket
    cases hsocket

theorem inv_step {h h' : History} {a : Action} (hinv : Inv pb h) (hfresh : FreshIds h a)
    (hstep : step pb h a = some h') : Inv pb h' := by
  obtain ⟨s, hs, rfl⟩ := Option.map_eq_some_iff.mp hstep
  cases a with
  | exchange now imported =>
      obtain ⟨⟨env, thread⟩, hcall, rfl⟩ := Option.map_eq_some_iff.mp hs
      simpa [receivedBy, checkedBy] using inv_exchange hinv hfresh hcall
  | receive proto =>
      simp only [TaskExchange.step] at hs
      split at hs
      · rename_i hidle
        obtain rfl := Option.some.inj hs
        simp only [addedBy, addTaskArgument, receivedBy, checkedBy, List.filter_nil,
          List.map_nil, List.append_nil]
        have hkeep : ∀ proto' ∈ h.received, proto' ∈ h.received ++ [proto] :=
          fun proto' hproto => List.mem_append_left _ hproto
        refine ⟨hinv.active, hinv.settled, hinv.once, ?_, hinv.accepted, ?_, ?_⟩
        · intro report rest hsocket
          cases hsocket
        · exact fun report hreport => ⟨proto, by simp, hreport⟩
        · intro check hcheck
          obtain ⟨proto', hproto, hmem⟩ := hinv.checkReported check hcheck
          exact ⟨proto', hkeep proto' hproto, hmem⟩
      · cases hs
  | socket now =>
      simpa [addedBy, addTaskArgument, receivedBy] using inv_socket hinv hs
  | lease now quota =>
      simp only [TaskExchange.step] at hs
      split at hs
      · rename_i hidle
        obtain rfl := Option.some.inj hs
        simpa [addedBy, addTaskArgument, receivedBy, checkedBy] using inv_lease hinv hidle
      · cases hs

/-- The next step of the socket thread turns its report down: the id is unknown
or the lease has ended. -/
def Rejects (now : Int) (s : State) : Prop :=
  match s.socket with
  | .findTask (report :: _) => s.env.tasks.find? report.taskId = none
  | .checkLease report _ =>
      ∃ task, s.env.tasks.find? report.taskId = some task ∧ task.lease < s.env.fdcsTime now
  | _ => False

theorem env_socketStep_of_rejects {s t : State} {now : Int} (hrejects : Rejects now s)
    (hstep : socketStep now s = some t) : t.env = s.env := by
  rcases socketStep_cases hstep with ⟨call, rfl, _⟩ |
    ⟨report, rest, task, hsocket, hfind, hle, rfl⟩ | ⟨report, rest, hsocket, rfl⟩
  · rfl
  · simp only [Rejects, hsocket] at hrejects
    obtain ⟨task', hfind', hlt⟩ := hrejects
    obtain rfl := Option.some.inj (hfind.symm.trans hfind')
    exact absurd hlt (not_lt.mpr hle)
  · simp only [Rejects, hsocket] at hrejects

/-- On a primary that imports fresh ids each task is accepted at most once, with
the payload of a received report whose lease had not ended; a report that is
turned down changes neither the table nor the completed list. -/
theorem accepted_at_most_once {settings : Settings} {actions : List Action} {h : History}
    (hfresh : Runs.Along (step pb) FreshIds (initial settings) actions)
    (hrun : Runs.run (step pb) (initial settings) actions = some h) :
    (h.state.moved.map FdcsTask.taskId).Nodup ∧
      (∀ task ∈ h.state.moved, task.taskId ∈ h.added ∧
        ∃ check ∈ h.checks, task = check.report.clearLeaseTime ∧ check.fdcsTime ≤ check.lease ∧
          ∃ proto ∈ h.received,
            check.report ∈ tasksUnder pb keyValuePairsTaskComplete proto) ∧
      ∀ now t, Rejects now h.state → socketStep now h.state = some t → t.env = h.state.env := by
  have hinv : Inv pb h :=
    Runs.invariant_along (fun _ _ _ hi ha hs => inv_step hi ha hs) (inv_initial settings) hfresh
      hrun
  refine ⟨hinv.once, ?_, fun now t hrejects hstep => env_socketStep_of_rejects hrejects hstep⟩
  intro task hmoved
  obtain ⟨check, hcheck, heq, hle⟩ := hinv.accepted task hmoved
  exact ⟨(hinv.settled task hmoved).1, check, hcheck, heq, hle, hinv.checkReported check hcheck⟩

def repeatedReportRun : List Action :=
  oneTaskRun 1 ++
    [.socket 1, .receive (taskReport plainProtobuf [{ taskId := ['t'] }]), .socket 1]

theorem repeatedReportRun_accepts_once :
    ∃ h, Runs.run (step plainProtobuf) (initial oneTaskSettings) repeatedReportRun = some h ∧
      h.checks.length = 1 ∧ (h.state.moved.map FdcsTask.taskId).Nodup := by
  have hchecks : (Runs.run (step plainProtobuf) (initial oneTaskSettings)
      repeatedReportRun).map (fun h => h.checks.length) = some 1 := by decide
  obtain ⟨h, hrun, hlength⟩ := Option.map_eq_some_iff.mp hchecks
  exact ⟨h, hrun, hlength, (accepted_at_most_once (by decide) hrun).1⟩

end FastDCS.Completion
