import Mathlib.Logic.Function.Basic
import Mathlib.Data.List.Count
import FastDCS.ExportOnce

/-!
The exports of a group of masters whose primaries fail and are replaced by
secondaries: duplicates, forwarded reports and replies travel between them.
-/

namespace FastDCS.Failover

open FastDCS.Strings
open FastDCS.Messages
open FastDCS.MasterTasks
open FastDCS.TaskExchange (exchangeStep)
open FastDCS.ExportOnce
open FastDCS.Runs

/-- A message between masters. A forwarded report that its primary has begun to
handle is answered when the primary is done with it. -/
inductive Message where
  | duplicate (secondary : Str) (proto : TrackerProtocol)
  | forwarded (secondary primary : Str) (proto : TrackerProtocol)
  | handled (secondary primary : Str) (proto : TrackerProtocol)
  | reply (secondary : Str) (proto : TrackerProtocol)
deriving DecidableEq

/-- The masters with their threads, who is primary and who has failed, and the
ids that `ImportTaskUDF` returned and that were passed to `ExportTaskUDF`. -/
structure State where
  masters : Str → TaskExchange.State
  primary : Option Str := none
  failed : List Str := []
  inFlight : List Message := []
  imported : List Str := []
  exports : List (Str × Str) := []

/-- A thread of a master goes on, a worker's report reaches a master, a message
between masters is handled, the primary fails, or a master is elected. -/
inductive Action where
  | exchange (master : Str) (now : Int) (imported : List FdcsTask)
  | socket (master : Str) (now : Int)
  | lease (master : Str) (now : Int) (quota : Nat)
  | report (master : Str) (proto : TrackerProtocol)
  | handleForwarded (index : Nat)
  | answer (index : Nat)
  | handleReply (index : Nat)
  | sendDuplicate (secondary : Str) (now : Int)
  | handleDuplicate (index : Nat) (now : Int)
  | fail
  | elect (master : Str)

variable (pb : Protobuf)

def State.socketThread (s : State) (master : Str) (a : TaskExchange.Action) : Option State :=
  if master ∈ s.failed then none
  else
    (TaskExchange.step pb (s.masters master) a).map fun m =>
      { s with masters := Function.update s.masters master m }

/-- The socket thread of a live master that is between two messages changes its
tasks. -/
def State.changeTasks (s : State) (master : Str) (f : Enviroment → Enviroment) : Option State :=
  if master ∈ s.failed ∨ (s.masters master).socket ≠ .idle then none
  else
    some
      { s with
        masters := Function.update s.masters master
          { s.masters master with env := f (s.masters master).env } }

def step (s : State) : Action → Option State
  | .exchange master now imported =>
      let m := s.masters master
      if master ∈ s.failed then none
      else
        (exchangeStep (decide (s.primary = some master)) now imported m.env m.exchange).map
          fun r =>
            { s with
              masters := Function.update s.masters master { m with env := r.1, exchange := r.2 }
              imported := s.imported ++ importedBy m.exchange imported
              exports := s.exports ++ (ids (exportedBy m.exchange)).map (master, ·) }
  | .socket master now => s.socketThread pb master (.socket now)
  | .lease master now quota => s.socketThread pb master (.lease now quota)
  | .report master proto =>
      match s.primary with
      | none => none
      | some primary =>
          if master = primary then s.socketThread pb master (.receive proto)
          else if master ∈ s.failed then none
          else some { s with inFlight := s.inFlight ++ [.forwarded master primary proto] }
  | .handleForwarded index =>
      match s.inFlight[index]? with
      | some (.forwarded secondary primary proto) =>
          let inFlight := s.inFlight.set index (.handled secondary primary proto)
          { s with inFlight := inFlight }.socketThread pb primary (.receive proto)
      | _ => none
  | .answer index =>
      match s.inFlight[index]? with
      | some (.handled secondary primary proto) =>
          let inFlight := s.inFlight.set index (.reply secondary proto)
          { s with inFlight := inFlight }.changeTasks primary id
      | _ => none
  | .handleReply index =>
      match s.inFlight[index]? with
      | some (.reply secondary proto) =>
          let inFlight := s.inFlight.eraseIdx index
          { s with inFlight := inFlight }.socketThread pb secondary (.receive proto)
      | _ => none
  | .sendDuplicate secondary now =>
      match s.primary with
      | none => none
      | some primary =>
          let result := sendTaskDuplicate pb (s.masters primary).env now
            { protocolType := .requestTaskDuplicate, requestSockAddr := secondary }
          let sent := result.1.toList.map (Message.duplicate secondary)
          { s with inFlight := s.inFlight ++ sent }.changeTasks primary fun _ => result.2
  | .handleDuplicate index now =>
      match s.inFlight[index]? with
      | some (.duplicate secondary proto) =>
          -- a primary takes the message for a request, which nobody waits for any more
          { s with inFlight := s.inFlight.eraseIdx index }.changeTasks secondary fun env =>
            if s.primary = some secondary then (sendTaskDuplicate pb env now proto).2
            else saveTaskDuplicate pb env proto
      | _ => none
  | .fail =>
      match s.primary with
      | none => none
      | some primary => some { s with primary := none, failed := s.failed ++ [primary] }
  | .elect master =>
      if s.primary = none ∧ master ∉ s.failed then some { s with primary := some master } else none

def initial (settings : Str → Settings) : State where
  masters master := TaskExchange.initial (settings master)

/-- `ImportTaskUDF` returns only ids that were never returned before. -/
def FreshImports (s : State) : Action → Prop
  | .exchange master _ imported =>
      (importedBy (s.masters master).exchange imported).Nodup ∧
        ∀ taskId ∈ importedBy (s.masters master).exchange imported, taskId ∉ s.imported
  | _ => True

instance (s : State) (a : Action) : Decidable (FreshImports s a) := by
  cases a <;> unfold FreshImports <;> infer_instance

structure Sound (s : State) : Prop where
  once : ∀ master, ∃ flushed, Once s.imported flushed (s.masters master)
  /-- The exchange thread of a master that was never primary has not begun. -/
  unused : ∀ master, s.primary ≠ some master → master ∉ s.failed →
    (s.masters master).exchange = {}
  exports : ∀ master, (s.exports.filter fun p => decide (p.1 = master)).map Prod.snd =
    ids (s.masters master).exchange.exported
  duplicates : ∀ secondary proto, Message.duplicate secondary proto ∈ s.inFlight →
    ∃ tasks, proto.keyValuesPairs = [writeTasks pb keyValuePairsTask tasks] ∧
      ids tasks ⊆ s.imported

variable {pb} {s s' : State}

theorem sound_initial (settings : Str → Settings) : Sound pb (initial settings) where
  once _ := ⟨[],
    { copied := rfl
      keyed := fun _ _ h => nomatch h
      settledOnce := List.nodup_nil
      addingOnce := List.nodup_nil
      settled := fun _ h => nomatch h
      added := fun _ h => nomatch h
      table := fun _ _ h => nomatch h }⟩
  unused _ _ _ := rfl
  exports _ := rfl
  duplicates _ _ h := nomatch h

/-- The duplicates in flight are old ones, or carry tasks that were imported. -/
def Carries (pb : Protobuf) (s : State) (inFlight : List Message) : Prop :=
  ∀ secondary proto, Message.duplicate secondary proto ∈ inFlight →
    Message.duplicate secondary proto ∈ s.inFlight ∨
      ∃ tasks, proto.keyValuesPairs = [writeTasks pb keyValuePairsTask tasks] ∧
        ids tasks ⊆ s.imported

theorem carries_of_subset {inFlight : List Message} (h : inFlight ⊆ s.inFlight) :
    Carries pb s inFlight :=
  fun _ _ hmem => Or.inl (h hmem)

theorem carries_set {index : Nat} {message : Message}
    (h : ∀ secondary proto, message ≠ .duplicate secondary proto) :
    Carries pb s (s.inFlight.set index message) := by
  intro secondary proto hmem
  rcases List.mem_or_eq_of_mem_set hmem with hold | heq
  · exact Or.inl hold
  · exact absurd heq.symm (h secondary proto)

theorem sound_update (hs : Sound pb s) {master : Str} {m : TaskExchange.State}
    (honce : ∃ flushed, Once s.imported flushed m)
    (hexchange : m.exchange = (s.masters master).exchange) {inFlight : List Message}
    (hinFlight : Carries pb s inFlight) :
    Sound pb
      { s with masters := Function.update s.masters master m, inFlight := inFlight } where
  once other := by
    rcases eq_or_ne other master with rfl | hne
    · simpa using honce
    · simpa [Function.update_of_ne hne] using hs.once other
  unused other hprimary hfailed := by
    rcases eq_or_ne other master with rfl | hne
    · simpa [hexchange] using hs.unused other hprimary hfailed
    · simpa [Function.update_of_ne hne] using hs.unused other hprimary hfailed
  exports other := by
    rcases eq_or_ne other master with rfl | hne
    · simpa [hexchange] using hs.exports other
    · simpa [Function.update_of_ne hne] using hs.exports other
  duplicates secondary proto hmem :=
    (hinFlight secondary proto hmem).elim (hs.duplicates secondary proto) id

theorem sound_socketThread (hs : Sound pb s) {inFlight : List Message}
    (hinFlight : Carries pb s inFlight) {master : Str} {a : TaskExchange.Action}
    (hsocket : ∀ now imported, a ≠ .exchange now imported)
    (h : { s with inFlight := inFlight }.socketThread pb master a = some s') : Sound pb s' := by
  rw [State.socketThread] at h
  split_ifs at h
  obtain ⟨m, hm, rfl⟩ := Option.map_eq_some_iff.mp h
  obtain ⟨flushed, honce⟩ := hs.once master
  obtain ⟨honce', hexchange⟩ := once_step pb honce hsocket hm
  exact sound_update hs ⟨flushed, honce'⟩ hexchange hinFlight

theorem sound_changeTasks (hs : Sound pb s) {inFlight : List Message}
    (hinFlight : Carries pb s inFlight) {master : Str} {f : Enviroment → Enviroment}
    (honce : master ∉ s.failed → ∃ flushed, Once s.imported flushed
      { s.masters master with env := f (s.masters master).env })
    (h : { s with inFlight := inFlight }.changeTasks master f = some s') : Sound pb s' := by
  rw [State.changeTasks] at h
  split_ifs at h with hbusy
  obtain rfl := Option.some.inj h
  exact sound_update hs (honce (not_or.mp hbusy).1) rfl hinFlight

theorem filter_exports (master other : Str) (taskIds : List Str) :
    ((taskIds.map (master, ·)).filter fun p => decide (p.1 = other)).map Prod.snd =
      if master = other then taskIds else [] := by
  split_ifs with h
  · rw [List.filter_eq_self.mpr (by simp [h]), List.map_map]
    exact List.map_id _
  · rw [List.filter_eq_nil_iff.mpr (by simp [h]), List.map_nil]

theorem sound_exchange (hs : Sound pb s) {master : Str} {now : Int} {imported : List FdcsTask}
    (hfresh : FreshImports s (.exchange master now imported))
    (h : step pb s (.exchange master now imported) = some s') : Sound pb s' := by
  obtain ⟨hnodup, hnew⟩ := hfresh
  simp only [step] at h
  split_ifs at h with hfailed
  obtain ⟨⟨env, thread⟩, hstep, rfl⟩ := Option.map_eq_some_iff.mp h
  obtain ⟨flushed, honce⟩ := hs.once master
  have hafter := once_exchangeStep honce hnodup hnew hstep
  constructor
  · intro other
    rcases eq_or_ne other master with rfl | hne
    · simpa using hafter
    · obtain ⟨flushed', honce'⟩ := hs.once other
      exact ⟨flushed', by
        simpa [Function.update_of_ne hne] using honce'.mono (List.subset_append_left _ _)⟩
  · intro other hprimary hlive
    rcases eq_or_ne other master with rfl | hne
    · -- the thread of a master that is not primary waits
      have hidle := hs.unused other hprimary hlive
      rw [hidle] at hstep
      simp only [exchangeStep, decide_eq_true_eq, if_neg hprimary, Option.some.injEq,
        Prod.mk.injEq] at hstep
      simpa using hstep.2.symm
    · simpa [Function.update_of_ne hne] using hs.unused other hprimary hlive
  · intro other
    rw [List.filter_append, List.map_append, hs.exports other, filter_exports]
    rcases eq_or_ne master other with rfl | hne
    · have hexported := (exchangeStep_lists hstep).1
      simp [hexported, ids]
    · simp [Function.update_of_ne hne.symm, hne]
  · intro secondary proto hmem
    obtain ⟨tasks, hpairs, hknown⟩ := hs.duplicates secondary proto hmem
    exact ⟨tasks, hpairs, List.Subset.trans hknown (List.subset_append_left _ _)⟩

theorem carries_sendDuplicate (hs : Sound pb s) (primary secondary : Str) (now : Int)
    (proto : TrackerProtocol) :
    Carries pb s (s.inFlight ++
      (sendTaskDuplicate pb (s.masters primary).env now proto).1.toList.map
        (Message.duplicate secondary)) := by
  intro receiver sent hmem
  rcases List.mem_append.mp hmem with hold | hnew
  · exact Or.inl hold
  · obtain ⟨duplicate, hduplicate, heq⟩ := List.mem_map.mp hnew
    obtain ⟨_, rfl⟩ := Message.duplicate.inj heq
    obtain ⟨quota, _, hpairs⟩ := sendTaskDuplicate_spec pb (s.masters primary).env now proto
    rw [Option.mem_toList.mp hduplicate] at hpairs
    refine Or.inr ⟨_, hpairs, fun taskId hid => ?_⟩
    obtain ⟨flushed, honce⟩ := hs.once primary
    obtain ⟨cleared, hcleared, rfl⟩ := List.mem_map.mp hid
    obtain ⟨task, htask, rfl⟩ := List.mem_map.mp hcleared
    obtain ⟨_, k, hfind, _⟩ := OrderedMap.mem_updateFirst_fst htask
    rw [FdcsTask.taskId_clearLeaseTime, honce.keyed k task hfind]
    exact honce.table k task hfind

theorem sound_handleDuplicate (hs : Sound pb s) {index : Nat} {now : Int}
    (h : step pb s (.handleDuplicate index now) = some s') : Sound pb s' := by
  simp only [step] at h
  split at h
  · rename_i secondary proto hget
    refine sound_changeTasks hs (carries_of_subset List.eraseIdx_subset) (fun hlive => ?_) h
    obtain ⟨flushed, honce⟩ := hs.once secondary
    split_ifs with hprimary
    · obtain ⟨quota, henv⟩ := sendTaskDuplicate_env pb (s.masters secondary).env now proto
      rw [henv]
      exact ⟨flushed, once_leaseFirst honce⟩
    · obtain ⟨tasks, hpairs, hknown⟩ :=
        hs.duplicates secondary proto (List.mem_of_getElem? hget)
      have hsave : saveTaskDuplicate pb (s.masters secondary).env proto =
          (s.masters secondary).env.updateTasks tasks := by
        simp [saveTaskDuplicate, hpairs, key_writeTasks, readTasks_writeTasks]
      rw [hsave]
      exact ⟨[], once_updateTasks (hs.unused secondary hprimary hlive) hknown⟩
  · cases h

theorem sound_step {a : Action} (hs : Sound pb s) (hfresh : FreshImports s a)
    (h : step pb s a = some s') : Sound pb s' := by
  have hself : Carries pb s s.inFlight := carries_of_subset (List.Subset.refl _)
  cases a with
  | exchange => exact sound_exchange hs hfresh h
  | socket master now => exact sound_socketThread hs hself (by simp) h
  | lease master now quota => exact sound_socketThread hs hself (by simp) h
  | report master proto =>
      simp only [step] at h
      split at h
      · cases h
      · rename_i primary hprimary
        split_ifs at h
        · exact sound_socketThread hs hself (by simp) h
        · obtain rfl := Option.some.inj h
          refine ⟨hs.once, hs.unused, hs.exports, fun secondary proto hmem => ?_⟩
          rcases List.mem_append.mp hmem with hold | hnew
          · exact hs.duplicates secondary proto hold
          · cases List.mem_singleton.mp hnew
  | handleForwarded index =>
      simp only [step] at h
      split at h
      · exact sound_socketThread hs (carries_set (by simp)) (by simp) h
      · cases h
  | answer index =>
      simp only [step] at h
      split at h
      · exact sound_changeTasks hs (carries_set (by simp)) (fun _ => hs.once _) h
      · cases h
  | handleReply index =>
      simp only [step] at h
      split at h
      · exact sound_socketThread hs (carries_of_subset List.eraseIdx_subset) (by simp) h
      · cases h
  | sendDuplicate secondary now =>
      simp only [step] at h
      split at h
      · cases h
      · rename_i primary hprimary
        refine sound_changeTasks hs (carries_sendDuplicate hs primary secondary now _)
          (fun _ => ?_) h
        obtain ⟨flushed, honce⟩ := hs.once primary
        obtain ⟨quota, henv⟩ := sendTaskDuplicate_env pb (s.masters primary).env now
          { protocolType := .requestTaskDuplicate, requestSockAddr := secondary }
        rw [henv]
        exact ⟨flushed, once_leaseFirst honce⟩
  | handleDuplicate => exact sound_handleDuplicate hs h
  | fail =>
      simp only [step] at h
      split at h
      · cases h
      · rename_i primary hprimary
        obtain rfl := Option.some.inj h
        refine ⟨hs.once, fun master _ hlive => ?_, hs.exports, hs.duplicates⟩
        rw [List.mem_append, List.mem_singleton] at hlive
        obtain ⟨hrunning, hother⟩ := not_or.mp hlive
        refine hs.unused master (fun heq => hother ?_) hrunning
        exact (Option.some.inj (hprimary.symm.trans heq)).symm
  | elect master =>
      simp only [step] at h
      split_ifs at h with hfree
      obtain rfl := Option.some.inj h
      refine ⟨hs.once, fun other hother hlive => hs.unused other ?_ hlive, hs.exports,
        hs.duplicates⟩
      rw [hfree.1]
      exact fun heq => nomatch heq

section Exports

end Exports

end FastDCS.Failover
