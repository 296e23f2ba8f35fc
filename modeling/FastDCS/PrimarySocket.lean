import FastDCS.Master
import FastDCS.Connections
import FastDCS.Runs

/-!
Whether a master that knows the primary has a socket to it, over any order of
messages, heart beats, closed sockets and outcomes of connection attempts.
-/

namespace FastDCS.PrimarySocket

open FastDCS.Strings
open FastDCS.Messages
open FastDCS.Handlers
open FastDCS.Tracker
open FastDCS.Master
open FastDCS.Connections

def NotNull (fault : Fault) : Prop := fault ≠ .nullDereference

instance (fault : Fault) : Decidable (NotNull fault) := by
  unfold NotNull
  infer_instance

/-- From `m` to `n` the node stays the master it is, knows the same primary and
loses no socket. -/
structure Keeps (m n : Node) : Prop where
  settings : n.fdcsEnv.settings = m.fdcsEnv.settings
  isMaster : n.isMaster = m.isMaster
  primary : n.primarySockaddr = m.primarySockaddr
  sockets : ∀ address, (m.masterSockets.find? address).isSome →
    (n.masterSockets.find? address).isSome

theorem Keeps.refl (n : Node) : Keeps n n := ⟨rfl, rfl, rfl, fun _ h => h⟩

theorem Keeps.trans {l m n : Node} (hlm : Keeps l m) (hmn : Keeps m n) : Keeps l n where
  settings := hmn.settings.trans hlm.settings
  isMaster := hmn.isMaster.trans hlm.isMaster
  primary := hmn.primary.trans hlm.primary
  sockets address h := hmn.sockets address (hlm.sockets address h)

theorem keeps_of_connects {around : Surroundings} {s t : Handling} (h : Connects around s t) :
    Keeps s.node t.node where
  settings := by rw [h.fdcsEnv]
  isMaster := h.isMaster
  primary := h.primary
  sockets address hsome := by
    obtain ⟨fd, hfd⟩ := Option.isSome_iff_exists.mp hsome
    rw [h.kept address fd hfd]
    rfl

/-- A known primary other than the master itself has a socket. -/
def PrimaryReachable (node : Node) : Prop :=
  node.iKnowPrimaryMaster = true → node.iAmPrimaryMaster = false →
    (node.masterSockets.find? node.primarySockaddr).isSome

/-- A master whose known primary is reachable. -/
structure Sound (node : Node) : Prop where
  isMaster : node.isMaster = true
  reachable : node.primarySockaddr = [] ∨ node.primarySockaddr = node.trackerServer ∨
    (node.masterSockets.find? node.primarySockaddr).isSome

theorem iAmPrimaryMaster_iff {node : Node} (h : node.isMaster = true) :
    node.iAmPrimaryMaster = true ↔
      node.primarySockaddr ≠ [] ∧ node.primarySockaddr = node.trackerServer := by
  simp [Node.iAmPrimaryMaster, h]

theorem Sound.primaryReachable {node : Node} (h : Sound node) : PrimaryReachable node := by
  intro hknow hprimary
  have hne : node.primarySockaddr ≠ [] := by simpa [Node.iKnowPrimaryMaster] using hknow
  rcases h.reachable with hempty | hown | hsocket
  · exact absurd hempty hne
  · rw [(iAmPrimaryMaster_iff h.isMaster).mpr ⟨hne, hown⟩] at hprimary
    cases hprimary
  · exact hsocket

theorem Sound.of_keeps {m n : Node} (h : Sound m) (hmn : Keeps m n) : Sound n where
  isMaster := hmn.isMaster.trans h.isMaster
  reachable := by
    rw [hmn.primary, Node.trackerServer, hmn.settings]
    rcases h.reachable with hempty | hown | hsocket
    · exact Or.inl hempty
    · exact Or.inr (Or.inl hown)
    · exact Or.inr (Or.inr (hmn.sockets _ hsocket))

section Handlers

variable {α β : Type}

/-- Started anywhere the handler keeps the node and dereferences no NULL. -/
def Steady (x : Handler α) : Prop :=
  ∀ s, Ensures x s (fun _ t => Keeps s.node t.node) NotNull

/-- Started where the primary is reachable, the handler ends there and
dereferences no NULL. -/
def Safe (x : Handler α) : Prop :=
  ∀ s, Sound s.node → Ensures x s (fun _ t => Sound t.node) NotNull

theorem Steady.safe {x : Handler α} (h : Steady x) : Safe x :=
  fun s hs => (h s).imp fun _ _ hkeeps => hs.of_keeps hkeeps

theorem Steady.bind {x : Handler α} {f : α → Handler β} (hx : Steady x) (hf : ∀ a, Steady (f a)) :
    Steady (x >>= f) := by
  intro s
  rw [ensures_bind]
  refine (hx s).imp fun a t hst => ?_
  exact (hf a t).imp fun b u htu => hst.trans htu

theorem Safe.bind {x : Handler α} {f : α → Handler β} (hx : Safe x) (hf : ∀ a, Safe (f a)) :
    Safe (x >>= f) := by
  intro s hs
  rw [ensures_bind]
  exact (hx s hs).imp fun a t ht => hf a t ht

theorem steady_pure (a : α) : Steady (pure a : Handler α) := fun s => Keeps.refl s.node

theorem steady_get : Steady (get : Handler Handling) := fun s => Keeps.refl s.node

theorem Steady.ite {c : Prop} [Decidable c] {x y : Handler α} (hx : Steady x) (hy : Steady y) :
    Steady (if c then x else y) := by
  split_ifs
  · exact hx
  · exact hy

theorem Safe.ite {c : Prop} [Decidable c] {x y : Handler α} (hx : Safe x) (hy : Safe y) :
    Safe (if c then x else y) := by
  split_ifs
  · exact hx
  · exact hy

theorem steady_emit (effect : Effect) : Steady (emit effect) := fun s => Keeps.refl s.node

theorem steady_modifyEnv {f : Enviroment → Enviroment}
    (h : ∀ env, (f env).settings = env.settings) :
    Steady (modifyEnv f) := fun s => ⟨h s.node.fdcsEnv, rfl, rfl, fun _ hsome => hsome⟩

variable {pb : Protobuf} {around : Surroundings}

theorem steady_connectMaster (address : Str) : Steady (connectMaster around address) := by
  intro s
  exact (ensures_connectMaster (Or.inr (by decide))).imp fun _ _ h => keeps_of_connects h.1

theorem steady_findNextMaster : Steady (findNextMaster around) := by
  intro s
  exact (ensures_findNextMaster (by decide) (by decide)).imp fun _ _ h => keeps_of_connects h

theorem steady_sendProtocol (proto : TrackerProtocol) (fd : Int) :
    Steady (sendProtocol proto fd) :=
  fun s => ensures_sendProtocol fun _ _ => Keeps.refl s.node

theorem steady_addProtoFdcsTime (proto : TrackerProtocol) :
    Steady (addProtoFdcsTime pb around proto) := by
  intro s
  simp only [addProtoFdcsTime, ensures_bind, ensures_get]
  cases int32ToKey (s.node.fdcsEnv.fdcsTime around.nowTime) with
  | none =>
      show NotNull .checkFailed
      decide
  | some fdcsTime => exact Keeps.refl s.node

theorem steady_masterGroupChanged : Steady (masterGroupChanged around) := by
  refine steady_get.bind fun h => (steady_pure _).ite ?_
  refine steady_findNextMaster.bind fun fd => (steady_pure _).ite ?_
  exact steady_get.bind fun h => steady_sendProtocol _ _

theorem steady_continueTransferProto (proto : TrackerProtocol) :
    Steady (continueTransferProto around proto) := by
  refine steady_findNextMaster.bind fun fd => (steady_pure _).ite ?_
  exact (steady_sendProtocol _ _).bind fun _ => steady_pure _

theorem steady_connectOnlineMaster (allMaster : Str) :
    Steady (connectOnlineMaster around allMaster) := by
  rw [connectOnlineMaster]
  induction splitStringUsing allMaster ';' with
  | nil => exact steady_pure _
  | cons address rest ih =>
      exact ((steady_connectMaster address).bind fun _ => steady_pure _).bind fun _ => ih

theorem steady_store {x : Handling → α × Enviroment}
    (h : ∀ s, (x s).2.settings = s.node.fdcsEnv.settings) (f : Handling → Handler β)
    (hf : ∀ s, Steady (f s)) :
    Steady (do
      let s ← get
      modifyEnv fun _ => (x s).2
      f s) := by
  intro s
  simp only [ensures_bind, ensures_get, modifyEnv, modifyNode, ensures_modify]
  have hstore : Keeps s.node { s.node with fdcsEnv := (x s).2 } :=
    ⟨h s, rfl, rfl, fun _ hsome => hsome⟩
  exact (hf s _).imp fun b t ht => hstore.trans ht

theorem steady_taskCompleted (proto : TrackerProtocol) :
    Steady (taskCompleted pb around proto) := by
  refine steady_store (x := fun s => MasterTasks.taskCompleted pb s.node.fdcsEnv around.nowTime
    proto) (fun s => ?_) _ fun s => steady_pure _
  rw [MasterTasks.taskCompleted_snd, MasterTasks.settings_foldl_completeTask]

theorem steady_getIdleTask (proto : TrackerProtocol) : Steady (getIdleTask pb around proto) := by
  refine steady_store (x := fun s => ((), (MasterTasks.getIdleTask pb s.node.iAmPrimaryMaster
    around.uninitialised s.node.fdcsEnv around.nowTime proto).2.2)) (fun s => ?_) _
    fun s => steady_pure _
  obtain ⟨quota, hquota⟩ := MasterTasks.getIdleTask_env pb s.node.fdcsEnv around.nowTime
    s.node.iAmPrimaryMaster around.uninitialised proto
  rw [hquota]
  rfl

theorem steady_sendTaskDuplicate (proto : TrackerProtocol) (fd : Int) :
    Steady (sendTaskDuplicate pb around proto fd) := by
  intro s
  simp only [sendTaskDuplicate, ensures_bind, ensures_get, ensures_ite, ensures_pure, modifyEnv,
    modifyNode, ensures_modify]
  refine ⟨fun _ => Keeps.refl s.node, fun _ => ?_⟩
  have hstore : Keeps s.node { s.node with
      fdcsEnv := (MasterTasks.sendTaskDuplicate pb s.node.fdcsEnv around.nowTime proto).2 } := by
    obtain ⟨quota, hquota⟩ := MasterTasks.sendTaskDuplicate_env pb s.node.fdcsEnv
      around.nowTime proto
    rw [hquota]
    exact ⟨rfl, rfl, rfl, fun _ hsome => hsome⟩
  cases (MasterTasks.sendTaskDuplicate pb s.node.fdcsEnv around.nowTime proto).1 with
  | none => exact hstore
  | some duplicate =>
      rw [ensures_bind]
      exact (steady_sendProtocol duplicate fd _).imp fun _ t ht => hstore.trans ht

theorem steady_saveTaskDuplicate (proto : TrackerProtocol) :
    Steady (saveTaskDuplicate pb proto) := by
  refine (steady_modifyEnv fun env => ?_).bind fun _ => steady_pure _
  exact MasterTasks.settings_saveTaskDuplicate pb proto

theorem safe_becomePrimary : Safe becomePrimary := by
  intro s hs
  exact ⟨hs.isMaster, Or.inr (Or.inl rfl)⟩

theorem safe_election : Safe (election around) := by
  refine steady_findNextMaster.safe.bind fun fd => safe_becomePrimary.ite ?_
  exact (steady_get.bind fun h => steady_sendProtocol _ _).safe

theorem safe_coordinator (trackerAddr : Str) : Safe (coordinator pb around trackerAddr) := by
  refine steady_findNextMaster.safe.bind fun fd => safe_becomePrimary.ite ?_
  refine (steady_get.bind fun h => ?_).safe
  exact (steady_addProtoFdcsTime _).bind fun _ => steady_sendProtocol _ _

theorem safe_askTracker : Safe (askTracker around) := by
  refine steady_findNextMaster.safe.bind fun fd => safe_election.ite ?_
  exact (steady_get.bind fun h => steady_sendProtocol _ _).safe

/-- A handler that reads a socket to the primary of a sound node finds one. -/
theorem ensures_primarySocketFd {s : Handling} (hs : Sound s.node)
    (hknow : s.node.iKnowPrimaryMaster = true) (hprimary : s.node.iAmPrimaryMaster = false)
    {Q : Int → Handling → Prop} {E : Fault → Prop} (hQ : ∀ fd, Q fd s) :
    Ensures (masterSocketFd s.node.primarySockaddr) s Q E := by
  obtain ⟨fd, hfd⟩ := Option.isSome_iff_exists.mp (hs.primaryReachable hknow hprimary)
  exact ensures_masterSocketFd hfd (hQ fd)

theorem safe_requestTaskDuplicate : Safe (requestTaskDuplicate around) := by
  intro s hs
  simp only [requestTaskDuplicate, ensures_bind, ensures_get, ensures_ite, ensures_pure]
  refine ⟨fun _ => hs, fun hcond => ?_⟩
  simp only [Bool.or_eq_true, Bool.not_eq_true', not_or, Bool.not_eq_false,
    Bool.not_eq_true] at hcond
  refine ensures_primarySocketFd hs hcond.1.2 hcond.1.1 fun fd => ?_
  exact (steady_sendProtocol _ fd).safe s hs

theorem safe_heartBeat : Safe (heartBeat around) := by
  intro s hs
  simp only [heartBeat, ensures_bind, ensures_get, ensures_ite, ensures_pure]
  refine ⟨fun _ => ⟨fun _ => safe_requestTaskDuplicate s hs, fun _ => hs⟩, fun _ => ?_⟩
  exact safe_askTracker s hs

theorem safe_socketClose (fd : Int) (guestAddr : Str) : Safe (socketClose around fd guestAddr) := by
  intro s hs
  simp only [socketClose, ensures_bind, ensures_get, ensures_ite, modifyNode, ensures_modify,
    removeSocketResource, ensures_pure]
  refine ⟨fun _ => ⟨fun _ => ⟨hs.isMaster, Or.inl rfl⟩, fun hne => ?_⟩, fun _ => ?_⟩
  · -- the erased socket is not the one to the primary
    have herased : Sound { s.node with masterSockets := s.node.masterSockets.erase guestAddr } := by
      refine ⟨hs.isMaster, ?_⟩
      rcases hs.reachable with hempty | hown | hsocket
      · exact Or.inl hempty
      · exact Or.inr (Or.inl hown)
      · refine Or.inr (Or.inr ?_)
        rw [OrderedMap.find?_erase, if_neg hne]
        exact hsocket
    refine (steady_masterGroupChanged.safe _ herased).imp fun _ t ht => ?_
    exact ⟨ht.isMaster, ht.reachable⟩
  · exact ⟨hs.isMaster, hs.reachable⟩

/-- The handler has a socket to the address or gets one with its next attempt. -/
def Connectable (around : Surroundings) (attempts : Nat) (node : Node) (address : Str) : Prop :=
  (node.masterSockets.find? address).isSome ∨
    contains node.trackerGroup address = true ∧ (around.connect attempts address).isSome

instance (attempts : Nat) (node : Node) (address : Str) :
    Decidable (Connectable around attempts node address) := by
  unfold Connectable
  infer_instance

/-- `JoinMasterGroup` leaves a socket to a primary that can be connected. -/
theorem ensures_joinMasterGroup (s : Handling) (proto : TrackerProtocol) :
    Ensures (joinMasterGroup pb around proto) s (fun _ t => Keeps s.node t.node ∧
      (s.node.primarySockaddr = [] ∨ s.node.primarySockaddr = s.node.trackerServer ∨
        (Connectable around s.attempts s.node s.node.primarySockaddr →
          (t.node.masterSockets.find? s.node.primarySockaddr).isSome))) NotNull := by
  simp only [joinMasterGroup, ensures_bind, ensures_get, ensures_ite, ensures_pure]
  refine ⟨fun hskip => ?_, fun _ => ?_⟩
  · refine ⟨Keeps.refl s.node, ?_⟩
    simp only [Node.iKnowPrimaryMaster, Bool.not_not, Bool.or_eq_true, List.isEmpty_iff,
      decide_eq_true_eq] at hskip
    exact hskip.imp_right Or.inl
  · refine (ensures_connectMaster (Or.inr (by decide))).imp fun ok t hconnect => ?_
    obtain ⟨hst, hok, hsocket, _⟩ := hconnect
    have hkeeps := keeps_of_connects hst
    refine ⟨fun htrue => ?_, fun hfalse => ⟨hkeeps, Or.inr (Or.inr fun hcan => ?_)⟩⟩
    · obtain ⟨fd, hfd⟩ := Option.isSome_iff_exists.mp (hsocket htrue)
      simp only [modifyEnv, modifyNode, ensures_modify]
      refine ensures_masterSocketFd hfd ?_
      have hsettled : Keeps s.node { t.node with
          fdcsEnv := t.node.fdcsEnv.calcFdcsTimeDiffer around.nowTime
            (protoFdcsTime pb around proto) } :=
        ⟨hkeeps.settings, hkeeps.isMaster, hkeeps.primary, hkeeps.sockets⟩
      refine (steady_sendProtocol _ fd _).imp fun _ u hu => ?_
      refine ⟨hsettled.trans hu, Or.inr (Or.inr fun _ => ?_)⟩
      exact hu.sockets _ (hsocket htrue)
    · rcases hcan with hold | ⟨hgroup, hnew⟩
      · exact hkeeps.sockets _ hold
      · exact absurd (hok.mpr ⟨hgroup, Or.inr hnew⟩) hfalse

theorem safe_processElection (closed : Bool) (proto : TrackerProtocol) :
    Safe (processElection pb around closed proto) := by
  refine Safe.ite ?_ ?_
  · intro s hs
    simp only [ensures_bind, ensures_get]
    cases electionResult (splitStringUsing s.node.trackerGroup ';')
        (proto.responseSockAddr ++ ';' :: s.node.trackerServer) with
    | none => exact hs
    | some trackerAddr =>
        rw [ensures_bind]
        exact (safe_coordinator trackerAddr s hs).imp fun _ _ ht => ht
  · exact (steady_continueTransferProto _).safe.bind fun _ => (steady_pure _).safe

/-- The primary named in a `COORDINATOR` or brought back by a
`MASTER_ASK_TRACKER` is the master itself, has a socket, or takes a connection
that the handler attempts. A `COORDINATOR` that has gone round makes no attempt. -/
def NamesConnectable (around : Surroundings) (node : Node) (proto : TrackerProtocol) : Prop :=
  match proto.protocolType with
  | .coordinator =>
      proto.responseResult = node.trackerServer ∨
        (node.masterSockets.find? proto.responseResult).isSome ∨
        closedCircle node proto = false ∧ Connectable around 0 node proto.responseResult
  | .masterAskTracker =>
      closedCircle node proto = true → proto.responseResult ≠ [] →
        proto.responseResult = node.trackerServer ∨
          Connectable around 0 node proto.responseResult ∨
          Connectable around 1 node proto.responseResult
  | _ => True

instance (node : Node) (proto : TrackerProtocol) :
    Decidable (NamesConnectable around node proto) := by
  unfold NamesConnectable
  split <;> infer_instance

theorem safe_processCoordinator {s : Handling} (hs : Sound s.node) (hattempts : s.attempts = 0)
    {proto : TrackerProtocol} (htype : proto.protocolType = .coordinator)
    (hnames : NamesConnectable around s.node proto) :
    Ensures (processCoordinator pb around (closedCircle s.node proto) proto) s
      (fun _ t => Sound t.node) NotNull := by
  simp only [NamesConnectable, htype] at hnames
  simp only [processCoordinator, ensures_bind]
  refine ensures_check (Or.inr (by decide)) fun _ => ?_
  simp only [modifyNode, ensures_modify, ensures_ite, ensures_bind, ensures_get, ensures_pure]
  refine ⟨fun hclosed => ⟨fun hown => ?_, fun hother => ?_⟩, fun hopen => ?_⟩
  · exact ⟨hs.isMaster, Or.inr (Or.inl hown)⟩
  · refine ⟨hs.isMaster, Or.inr (Or.inr ?_)⟩
    rcases hnames with hown | hsocket | ⟨hopen, _⟩
    · exact absurd hown hother
    · exact hsocket
    · rw [hclosed] at hopen
      cases hopen
  · refine (ensures_joinMasterGroup _ proto).imp fun _ t ht => ?_
    obtain ⟨hkeeps, hjoined⟩ := ht
    refine (steady_continueTransferProto proto t).imp fun _ u hu => ?_
    refine Sound.of_keeps ⟨hkeeps.isMaster.trans hs.isMaster, ?_⟩ hu
    rw [hkeeps.primary, Node.trackerServer, hkeeps.settings]
    rcases hnames with hown | hsocket | ⟨_, hcan⟩
    · exact Or.inr (Or.inl hown)
    · exact Or.inr (Or.inr (hkeeps.sockets _ hsocket))
    · refine hjoined.imp_right (Or.imp_right fun hconnect => hconnect ?_)
      rw [hattempts]
      exact hcan

theorem safe_processAskTracker {s : Handling} (hs : Sound s.node) (hattempts : s.attempts = 0)
    {proto : TrackerProtocol} (htype : proto.protocolType = .masterAskTracker)
    (hnames : NamesConnectable around s.node proto) :
    Ensures (processAskTracker pb around (closedCircle s.node proto) proto) s
      (fun _ t => Sound t.node) NotNull := by
  simp only [NamesConnectable, htype] at hnames
  simp only [processAskTracker, ensures_bind, ensures_get]
  refine ensures_addPrimaryTime pb around (Or.inl (by decide)) fun pairs => ?_
  simp only [ensures_ite, ensures_bind, ensures_pure, List.isEmpty_iff]
  refine ⟨fun hclosed => ⟨fun _ => safe_election s hs, fun hne => ?_⟩, fun _ =>
    ⟨fun _ => ?_, fun _ => ⟨fun _ => safe_election s hs, fun _ => ?_⟩⟩⟩
  · refine ensures_check (Or.inr (by decide)) fun _ => ?_
    rw [modifyNode, ensures_modify]
    refine (ensures_connectMaster (Or.inr (by decide))).imp fun ok t hconnect => ?_
    obtain ⟨hst, hok, hsocket, hattempted, _⟩ := hconnect
    have hkeeps := keeps_of_connects hst
    refine (ensures_joinMasterGroup t _).imp fun _ u hu => ?_
    obtain ⟨hkeeps', hjoined⟩ := hu
    have hall := hkeeps.trans hkeeps'
    refine ⟨hall.isMaster.trans hs.isMaster, ?_⟩
    rw [hall.primary, Node.trackerServer, hall.settings]
    rw [hkeeps.primary, Node.trackerServer, hkeeps.settings] at hjoined
    have hearly : ok = true → (u.node.masterSockets.find? proto.responseResult).isSome :=
      fun htrue => hkeeps'.sockets _ (hsocket htrue)
    rcases hnames hclosed hne with hown | (hold | ⟨hgroup, hnew⟩) | (hold | ⟨hgroup, hnew⟩)
    · exact Or.inr (Or.inl hown)
    · exact Or.inr (Or.inr (hall.sockets _ hold))
    · refine Or.inr (Or.inr (hearly (hok.mpr ⟨hgroup, Or.inr ?_⟩)))
      rw [hattempts]
      exact hnew
    · exact Or.inr (Or.inr (hall.sockets _ hold))
    · -- the first attempt may fail: `JoinMasterGroup` makes a second one
      cases ok with
      | true => exact Or.inr (Or.inr (hearly rfl))
      | false =>
          refine hjoined.imp_right (Or.imp_right fun hconnect => hconnect (Or.inr ⟨?_, ?_⟩))
          · rw [hst.trackerGroup]
            exact hgroup
          · rw [hattempted rfl hgroup, hattempts]
            exact hnew
  · exact (steady_continueTransferProto _).safe s hs
  · exact (steady_continueTransferProto _).safe s hs

theorem steady_replyIdleTask (proto : TrackerProtocol) : Steady (replyIdleTask pb around proto) :=
  (steady_getIdleTask proto).bind fun _ => steady_pure _

theorem steady_completeForwarded (proto : TrackerProtocol) :
    Steady (completeForwarded pb around proto) :=
  ((steady_taskCompleted proto).bind fun _ => steady_pure _).ite (steady_pure _)

theorem safe_processWorkerRequestTask (fd : Int) (proto : TrackerProtocol) :
    Safe (processWorkerRequestTask pb around fd proto) := by
  have hreply : ∀ reply receiver, Steady (do
      let _ ← sendProtocol reply receiver
      emit .taskExchangeSignal
      pure true) := fun reply receiver =>
    (steady_sendProtocol _ _).bind fun _ => (steady_emit _).bind fun _ => steady_pure _
  intro s hs
  rw [processWorkerRequestTask, ensures_bind, ensures_get]
  refine ensures_ite.mpr ⟨fun _ => ?_, fun hprimary => ensures_ite.mpr ⟨fun _ => ?_, fun _ => ?_⟩⟩
  · refine Steady.safe ?_ s hs
    refine (steady_taskCompleted _).bind fun completed => ?_
    exact (steady_replyIdleTask _).bind fun reply => hreply _ _
  · refine ensures_ite.mpr ⟨fun hknow => ?_, fun _ => hs⟩
    rw [ensures_bind]
    refine ensures_primarySocketFd hs hknow (by simpa using hprimary) fun primaryFd => ?_
    exact (hreply _ _).safe s hs
  · refine Steady.safe ?_ s hs
    refine (steady_completeForwarded _).bind fun proto => ?_
    refine (steady_replyIdleTask _).bind fun reply => Steady.ite ?_ (hreply _ _)
    exact (steady_emit _).bind fun _ => hreply _ _

theorem safe_protocolProcess {s : Handling} (hs : Sound s.node) (hattempts : s.attempts = 0)
    (fd : Int) {proto : TrackerProtocol} (hnames : NamesConnectable around s.node proto) :
    Ensures (protocolProcess pb around fd proto) s (fun _ t => Sound t.node) NotNull := by
  have hend : Steady (pure true : Handler Bool) := steady_pure true
  rw [protocolProcess, ensures_bind, ensures_get]
  cases htype : proto.protocolType with
  | election => exact safe_processElection _ _ s hs
  | coordinator => exact safe_processCoordinator hs hattempts htype hnames
  | masterAskTracker => exact safe_processAskTracker hs hattempts htype hnames
  | workerAskTracker =>
      refine Steady.safe (Steady.ite ?_ hend) s hs
      exact (steady_addProtoFdcsTime _).bind fun _ => (steady_sendProtocol _ _).bind fun _ => hend
  | syncTaskDuplicate =>
      exact (((steady_saveTaskDuplicate _).bind fun _ => hend).ite hend).safe s hs
  | requestTaskDuplicate =>
      refine Steady.safe (Steady.ite ?_ ?_) s hs
      · exact (steady_sendTaskDuplicate _ _).bind fun _ => hend
      · exact (steady_saveTaskDuplicate _).bind fun _ => hend
  | masterJoinGroup =>
      refine Steady.safe ((steady_connectMaster _).bind fun _ => ?_) s hs
      exact steady_masterGroupChanged.bind fun _ => hend
  | masterGroupChanged =>
      refine Steady.safe (Steady.ite ?_ hend) s hs
      refine (steady_connectOnlineMaster _).bind fun _ => ?_
      exact (steady_continueTransferProto _).bind fun _ => hend
  | askTaskStatus => exact ((steady_sendProtocol _ _).bind fun _ => hend).safe s hs
  | workerRequestTask => exact safe_processWorkerRequestTask fd proto s hs
  | _ => exact hs

end Handlers

section Runs

variable (pb : Protobuf)

/-- What happens to a master: a message, a heart beat or a closed socket, each
with the surroundings its handler meets. -/
inductive Action where
  | receive (around : Surroundings) (socketFd : Int) (proto : TrackerProtocol)
  | heartBeat (around : Surroundings)
  | socketClose (around : Surroundings) (socketFd : Int) (guestAddr : Str)

def handler : Action → Handler Bool
  | .receive around socketFd proto => protocolProcess pb around socketFd proto
  | .heartBeat around => heartBeat around
  | .socketClose around socketFd guestAddr => socketClose around socketFd guestAddr

/-- A handler that stops with a fault takes the process down. -/
def step (node : Node) (a : Action) : Option Node :=
  match (handler pb a).run { node := node } with
  | .ok r => some r.2.node
  | .error _ => none

def initial (settings : Settings) (listenFd : Int) : Node where
  fdcsEnv := { settings := settings }
  masterSockets := OrderedMap.empty.set settings.trackerServer listenFd
  sendBuffers := [listenFd]

/-- A message names only a primary the handler can connect. -/
def ConnectsPrimary (node : Node) : Action → Prop
  | .receive around _ proto => NamesConnectable around node proto
  | _ => True

instance (node : Node) (a : Action) : Decidable (ConnectsPrimary node a) := by
  cases a <;> unfold ConnectsPrimary <;> infer_instance

variable {pb}

theorem ensures_handler {node : Node} {a : Action} (hsound : Sound node)
    (hconnects : ConnectsPrimary node a) :
    Ensures (handler pb a) { node := node } (fun _ t => Sound t.node) NotNull := by
  cases a with
  | receive around socketFd proto => exact safe_protocolProcess hsound rfl socketFd hconnects
  | heartBeat around => exact safe_heartBeat _ hsound
  | socketClose around socketFd guestAddr => exact safe_socketClose socketFd guestAddr _ hsound

theorem sound_step {node node' : Node} {a : Action} (hsound : Sound node)
    (hconnects : ConnectsPrimary node a) (hstep : step pb node a = some node') : Sound node' := by
  rw [step] at hstep
  split at hstep
  · rename_i r hrun
    obtain rfl := Option.some.inj hstep
    exact (ensures_handler hsound hconnects).of_run_eq_ok hrun
  · cases hstep

/-- In a run whose messages name only primaries that can be connected, a known
primary has a socket, and the next such step dereferences no NULL pointer. -/
theorem primary_reachable_of_connects {settings : Settings} {listenFd : Int}
    {actions : List Action} {node : Node}
    (hconnects : Runs.Along (step pb) ConnectsPrimary (initial settings listenFd) actions)
    (hrun : Runs.run (step pb) (initial settings listenFd) actions = some node) :
    PrimaryReachable node ∧
      ∀ a, ConnectsPrimary node a →
        (handler pb a).run { node := node } ≠ .error .nullDereference := by
  have hinit : Sound (initial settings listenFd) := ⟨rfl, Or.inl rfl⟩
  have hsound : Sound node :=
    Runs.invariant_along (fun _ _ _ hs ha hstep => sound_step hs ha hstep) hinit hconnects hrun
  refine ⟨hsound.primaryReachable, fun a ha hnull => ?_⟩
  exact (ensures_handler hsound ha).of_run_eq_error hnull rfl

def firstOfThree : Settings where
  trackerGroup := "10.0.0.1:1;10.0.0.2:1;10.0.0.3:1".toList
  trackerServer := "10.0.0.1:1".toList

def connecting : Surroundings where
  nowTime := 0
  connect _ _ := some 5
  loopFuel := 4

/-- A message that comes back after passing the other two masters. -/
def roundTrip (protocolType : ProtocolType) (responseResult : String) : TrackerProtocol where
  protocolType := protocolType
  requestSockAddr := "10.0.0.1:1".toList
  responseSockAddr := "10.0.0.1:1;10.0.0.2:1;10.0.0.3:1".toList
  responseResult := responseResult.toList

theorem joining_run_reaches_primary :
    ∃ node, Runs.run (step plainProtobuf) (initial firstOfThree 3)
        [.heartBeat connecting,
          .receive connecting 4 (roundTrip .masterAskTracker "10.0.0.3:1"),
          .heartBeat connecting] = some node ∧
      node.primarySockaddr = "10.0.0.3:1".toList ∧ PrimaryReachable node := by
  have hprimary : (Runs.run (step plainProtobuf) (initial firstOfThree 3)
      [.heartBeat connecting,
        .receive connecting 4 (roundTrip .masterAskTracker "10.0.0.3:1"),
        .heartBeat connecting]).map Node.primarySockaddr = some "10.0.0.3:1".toList := by
    decide
  obtain ⟨node, hrun, hnode⟩ := Option.map_eq_some_iff.mp hprimary
  exact ⟨node, hrun, hnode, (primary_reachable_of_connects (by decide) hrun).1⟩

/-- The master that started an election adopts the announced primary without
connecting it. -/
theorem announced_primary_not_always_reachable :
    ¬∀ (pb : Protobuf) (settings : Settings) (listenFd : Int) (actions : List Action)
      (node : Node), Runs.run (step pb) (initial settings listenFd) actions = some node →
        PrimaryReachable node := by
  intro h
  have hlost : (Runs.run (step plainProtobuf) (initial firstOfThree 3)
      [.heartBeat connecting,
        .receive connecting 4 (roundTrip .masterAskTracker ""),
        .receive connecting 4 (roundTrip .election ""),
        .receive connecting 4 (roundTrip .coordinator "10.0.0.3:1")]).map
          (fun node => (node.iKnowPrimaryMaster, node.iAmPrimaryMaster,
            node.masterSockets.find? node.primarySockaddr)) = some (true, false, none) := by
    decide
  obtain ⟨node, hrun, hnode⟩ := Option.map_eq_some_iff.mp hlost
  obtain ⟨hknow, hrest⟩ := Prod.mk.inj hnode
  obtain ⟨hprimary, hnone⟩ := Prod.mk.inj hrest
  have hsocket := h plainProtobuf firstOfThree 3 _ node hrun hknow hprimary
  rw [hnone] at hsocket
  cases hsocket

end Runs

end FastDCS.PrimarySocket
