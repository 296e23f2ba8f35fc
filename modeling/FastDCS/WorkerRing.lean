import FastDCS.ConsistentHash

/-!
Every run of a worker's threads opens and closes connections as in a run of the
ring model.
-/

namespace FastDCS.WorkerRing

open FastDCS.Strings
open FastDCS.Messages
open FastDCS.Handlers
open FastDCS.Tracker
open FastDCS.Worker hiding State Action step initial
open FastDCS.ConsistentHash
open FastDCS.Runs

variable {around : Surroundings} {α β : Type}

/-- Each attempt of a handler is one call that meets a network of its own. -/
def networkAt (around : Surroundings) (attempt : Nat) : Network where
  connect address := (around.connect attempt address).map Int.toNat

/-- A connection that succeeds has a descriptor. -/
def Connecting (around : Surroundings) : Prop :=
  ∀ attempt address fd, around.connect attempt address = some fd → 0 ≤ fd

def Reaches (s t : State) : Prop := ∃ as, run step s as = some t

/-- What the handler does to the node is a run. -/
def Covered (handler : Handler α) : Prop :=
  ∀ h ring, Ensures handler h (fun _ t => Reaches ⟨h.node, ring⟩ ⟨t.node, ring⟩) fun _ => True

theorem Reaches.refl (s : State) : Reaches s s := ⟨[], rfl⟩

theorem Reaches.trans {s t u : State} (hst : Reaches s t) (htu : Reaches t u) : Reaches s u := by
  obtain ⟨as, has⟩ := hst
  obtain ⟨bs, hbs⟩ := htu
  exact ⟨as ++ bs, run_append.mpr ⟨t, has, hbs⟩⟩

theorem reaches_step {s t : State} {a : Action} (h : step s a = some t) : Reaches s t :=
  ⟨[a], run_cons_eq_some.mpr ⟨t, h, rfl⟩⟩

theorem Covered.bind {x : Handler α} {f : α → Handler β} (hx : Covered x)
    (hf : ∀ a, Covered (f a)) : Covered (x >>= f) := by
  intro h ring
  rw [ensures_bind]
  refine (hx h ring).imp fun a t hht => ?_
  exact (hf a t ring).imp fun b u htu => hht.trans htu

theorem covered_pure (a : α) : Covered (pure a) := fun h ring => Reaches.refl ⟨h.node, ring⟩

theorem covered_get : Covered (get : Handler Handling) := fun h ring => Reaches.refl ⟨h.node, ring⟩

theorem covered_throw (fault : Fault) : Covered (throw fault : Handler α) := by
  intro h ring
  rw [ensures_throw]
  trivial

theorem covered_emit (effect : Effect) : Covered (emit effect) :=
  fun h ring => Reaches.refl ⟨h.node, ring⟩

theorem covered_check (condition : Bool) : Covered (check condition) := by
  cases condition with
  | false => exact covered_throw _
  | true => exact covered_pure _

theorem covered_masterSocketFd (address : Str) : Covered (masterSocketFd address) := by
  refine covered_get.bind fun h => ?_
  cases h.node.masterSockets.find? address with
  | none => exact covered_throw _
  | some fd => exact covered_pure _

theorem covered_learnPrimary (address : Str) :
    Covered (modifyNode fun node => { node with primarySockaddr := address }) := by
  intro h ring
  rw [modifyNode, ensures_modify]
  exact reaches_step (a := .learnPrimary address) rfl

theorem covered_modifyEnv {f : Enviroment → Enviroment}
    (hf : ∀ env, (f env).settings = env.settings) : Covered (modifyEnv f) := by
  intro h ring
  rw [modifyEnv, modifyNode, ensures_modify]
  refine reaches_step (a := .store f) ?_
  rw [step, ← hf]

/-- One attempt makes of the node what the call makes that meets its network. -/
theorem ensures_connectMaster_after (hconnecting : Connecting around) (h : Handling)
    (address : Str) : Ensures (connectMaster around address) h (fun _ t =>
      after h.node (connectMaster (networkAt around h.attempts).around address) =
        some t.node) fun _ => True := by
  have hsame : (networkAt around h.attempts).around.connect 0 address =
      around.connect h.attempts address := by
    rw [Network.around, networkAt]
    dsimp only
    cases hconnect : around.connect h.attempts address with
    | none => rfl
    | some fd => exact congrArg some (Int.toNat_of_nonneg (hconnecting _ _ _ hconnect))
  rw [Ensures, after, run_connectMaster, run_connectMaster]
  dsimp only
  rw [hsame]
  split_ifs
  · rfl
  · rfl
  · cases around.connect h.attempts address with
    | none => rfl
    | some fd => rfl
  · trivial

theorem covered_connectMaster (hconnecting : Connecting around) (address : Str) :
    Covered (connectMaster around address) := by
  intro h ring
  refine (ensures_connectMaster_after hconnecting h address).imp fun _ t hafter => ?_
  refine reaches_step (a := .connectMaster (networkAt around h.attempts) address) ?_
  rw [step, hafter]
  rfl

theorem covered_findMasterLoop (hconnecting : Connecting around) (masterSockaddr : List Str) :
    Covered (findMasterLoop around masterSockaddr) := by
  induction masterSockaddr with
  | nil => exact covered_pure _
  | cons masterAddr rest ih =>
      refine (covered_connectMaster hconnecting masterAddr).bind fun connected => ?_
      split_ifs
      · exact covered_masterSocketFd masterAddr
      · exact ih

theorem covered_sendProtocol (proto : TrackerProtocol) (fd : Int) :
    Covered (sendProtocol proto fd) := by
  refine covered_get.bind fun h => ?_
  dsimp only
  split_ifs
  · exact (covered_emit _).bind fun _ => covered_pure _
  · exact covered_pure _

theorem covered_askTracker (hconnecting : Connecting around) : Covered (askTracker around) := by
  have hfind : Covered (findMaster around) :=
    covered_get.bind fun _ => (covered_check _).bind fun _ =>
      covered_findMasterLoop hconnecting _
  refine hfind.bind fun masterFd => ?_
  split_ifs
  · exact covered_pure _
  · exact covered_get.bind fun _ => covered_sendProtocol _ _

theorem covered_findOwnerMaster (hconnecting : Connecting around) (owner : Option Str) :
    Covered (findOwnerMaster around owner) := by
  cases owner with
  | none => exact covered_pure _
  | some owner =>
      refine (covered_connectMaster hconnecting owner).bind fun connected => ?_
      split_ifs
      · exact covered_masterSocketFd owner
      · refine covered_get.bind fun h => ?_
        refine (covered_connectMaster hconnecting _).bind fun connected => ?_
        split_ifs
        · exact covered_masterSocketFd _
        · exact covered_pure _

theorem covered_processAskTracker (hconnecting : Connecting around) (pb : Protobuf)
    (proto : TrackerProtocol) : Covered (processAskTracker pb around proto) := by
  refine (covered_learnPrimary _).bind fun _ => (covered_modifyEnv ?_).bind fun _ => ?_
  · intro env
    rfl
  · exact (covered_connectMaster hconnecting _).bind fun _ => (covered_emit _).bind fun _ =>
      covered_pure _

theorem reaches_of_after {w w' : Worker.State} {handler : Handler α} {a : α}
    (hcovered : Covered handler) (h : w.after handler = some (a, w')) (ring : Finset Nat) :
    Reaches ⟨w.node, ring⟩ ⟨w'.node, ring⟩ := by
  rw [Worker.State.after] at h
  cases hrun : handler.run { node := w.node } with
  | error fault =>
      rw [hrun] at h
      cases h
  | ok r =>
      rw [hrun] at h
      obtain ⟨rfl, rfl⟩ := Prod.mk.inj (Option.some.inj h)
      exact (hcovered { node := w.node } ring).of_run_eq_ok hrun

theorem reaches_setEnv (w : Worker.State) (env : Enviroment)
    (hsettings : env.settings = w.env.settings) (ring : Finset Nat) :
    Reaches ⟨w.node, ring⟩ ⟨(w.setEnv env).node, ring⟩ := by
  refine reaches_step (a := .store fun _ => env) ?_
  have henv : { env with settings := w.node.fdcsEnv.settings } = env := by
    rw [← Worker.State.env, ← hsettings]
  rw [step, henv]
  rfl

/-- The connections that succeed in a step of the worker have a descriptor. -/
def AllConnecting : Worker.Action → Prop
  | .heartBeat around _ => Connecting around
  | .receive around _ => Connecting around
  | _ => True

theorem reaches_heartBeatStep (pb : Protobuf) (hconnecting : Connecting around)
    {owner : Option Str} {w w' : Worker.State} (h : heartBeatStep pb around owner w = some w')
    (ring : Finset Nat) : Reaches ⟨w.node, ring⟩ ⟨w'.node, ring⟩ := by
  rw [heartBeatStep] at h
  cases hcall : w.heartBeat with
  | idle =>
      simp only [hcall] at h
      split_ifs at h
      · cases h
        exact Reaches.refl _
      · cases h
        exact Reaches.refl _
      · obtain ⟨⟨ok, w''⟩, hafter, rfl⟩ := Option.map_eq_some_iff.mp h
        exact reaches_of_after (covered_askTracker hconnecting) hafter ring
  | findOwnerMaster =>
      simp only [hcall] at h
      obtain ⟨⟨fd, w''⟩, hafter, rfl⟩ := Option.map_eq_some_iff.mp h
      have hreaches := reaches_of_after (covered_findOwnerMaster hconnecting owner) hafter ring
      split_ifs
      · exact hreaches
      · exact hreaches
  | completedTasksSize masterFd i =>
      simp only [hcall] at h
      split_ifs at h
      · cases h
        exact Reaches.refl _
      · cases h
        exact Reaches.refl _
  | completedTasks masterFd i =>
      simp only [hcall] at h
      obtain ⟨task, _, rfl⟩ := Option.map_eq_some_iff.mp h
      exact Reaches.refl _
  | clearCompletedTasks masterFd =>
      simp only [hcall] at h
      cases h
      exact reaches_setEnv w w.env.clearCompletedTasks rfl ring
  | sendProtocol masterFd =>
      simp only [hcall, Option.bind_eq_bind] at h
      obtain ⟨requestArgs, _, hsend⟩ := Option.bind_eq_some_iff.mp h
      obtain ⟨⟨ok, w''⟩, hafter, hlast⟩ := Option.bind_eq_some_iff.mp hsend
      have hreaches := reaches_of_after (covered_sendProtocol _ _) hafter ring
      dsimp only at hlast
      split_ifs at hlast
      · cases hlast
        exact hreaches
      · cases hlast
        exact hreaches

theorem reaches_computingStep (w : Worker.State) (thread : Nat) (now : Int)
    (result : FdcsTask → FdcsTask) (ring : Finset Nat) :
    Reaches ⟨w.node, ring⟩ ⟨(computingStep thread now result w).node, ring⟩ := by
  have hsame : (w.setEnv w.env).node = w.node := rfl
  rw [computingStep]
  cases w.computing thread with
  | tasksSize =>
      dsimp only
      split_ifs
      · exact Reaches.refl _
      · exact Reaches.refl _
  | getIdleTask =>
      dsimp only
      have hreaches := reaches_setEnv w (w.env.getIdleTask now).2 rfl ring
      generalize w.env.getIdleTask now = found at hreaches ⊢
      obtain ⟨_ | task, env⟩ := found
      · exact hreaches
      · exact hreaches
  | computingUDF taskId =>
      dsimp only
      cases w.env.findTask taskId with
      | none => exact Reaches.refl _
      | some task => exact reaches_setEnv w (w.env.modifyTask taskId result) rfl ring
  | taskCompleted taskId =>
      have hsettings : (w.env.taskCompleted taskId).settings = w.env.settings := by
        rw [Enviroment.taskCompleted]
        cases w.env.tasks.find? taskId with
        | none => rfl
        | some task => rfl
      exact reaches_setEnv w (w.env.taskCompleted taskId) hsettings ring

/-- A step of the worker is a run of connections opening and closing. -/
theorem reaches_of_worker_step (pb : Protobuf) {w w' : Worker.State} {a : Worker.Action}
    (hconnecting : AllConnecting a) (hworker : w.node.isMaster = false)
    (h : Worker.step pb w a = some w') (ring : Finset Nat) :
    ∃ ring', Reaches ⟨w.node, ring⟩ ⟨w'.node, ring'⟩ := by
  cases a with
  | heartBeat around owner => exact ⟨ring, reaches_heartBeatStep pb hconnecting h ring⟩
  | receive around proto =>
      refine ⟨ring, ?_⟩
      rw [Worker.step] at h
      split at h
      · cases h
        exact Reaches.refl _
      · obtain ⟨⟨ok, w''⟩, hafter, rfl⟩ := Option.map_eq_some_iff.mp h
        exact reaches_of_after (covered_processAskTracker hconnecting pb proto) hafter ring
      · cases h
        exact Reaches.refl _
      · cases h
  | socket =>
      refine ⟨ring, ?_⟩
      rw [Worker.step, socketStep] at h
      cases hcall : w.socket with
      | idle =>
          rw [hcall] at h
          cases h
      | tasksSize proto =>
          simp only [hcall] at h
          split_ifs at h
          · cases h
            exact Reaches.refl _
          · cases h
            exact Reaches.refl _
      | updateTasks newTasks =>
          simp only [hcall] at h
          cases h
          exact reaches_setEnv w (w.env.updateTasks newTasks) rfl ring
  | computing thread now result =>
      obtain rfl := Option.some.inj h
      exact ⟨ring, reaches_computingStep w thread now result ring⟩
  | socketClose around socketFd guestAddr =>
      obtain ⟨⟨ok, w''⟩, hafter, rfl⟩ := Option.map_eq_some_iff.mp h
      rw [Worker.State.after, run_socketClose around hworker] at hafter
      cases hafter
      refine ⟨ringAfterClose ⟨w.node, ring⟩ guestAddr,
        reaches_step (a := .socketClose socketFd guestAddr) ?_⟩
      rw [step, after, run_socketClose _ hworker]
      rfl

/-- Whatever a worker does, its connections and its ring come about in one of
these runs. -/
theorem reaches_of_worker_run (pb : Protobuf) {settings : Settings} {workerSockaddr : Str}
    {as : List Worker.Action} {w : Worker.State} (hconnecting : ∀ a ∈ as, AllConnecting a)
    (hrun : run (Worker.step pb) (Worker.initial settings workerSockaddr) as = some w) :
    ∃ ring, Reaches (initial settings workerSockaddr) ⟨w.node, ring⟩ := by
  have hstep : ∀ w a w', (∃ ring, Reaches (initial settings workerSockaddr) ⟨w.node, ring⟩) →
      AllConnecting a → Worker.step pb w a = some w' →
        ∃ ring, Reaches (initial settings workerSockaddr) ⟨w'.node, ring⟩ := by
    rintro w a w' ⟨ring, hreaches⟩ ha hnext
    have hworker : w.node.isMaster = false := by
      obtain ⟨bs, hbs⟩ := hreaches
      exact (invariant (fun _ _ _ hinv h => inv_step hinv h) (inv_initial _ _) hbs).isWorker
    obtain ⟨ring', hlast⟩ := reaches_of_worker_step pb ha hworker hnext ring
    exact ⟨ring', hreaches.trans hlast⟩
  exact invariant_along hstep ⟨_, Reaches.refl _⟩ (along_of_forall hconnecting _) hrun

end FastDCS.WorkerRing
