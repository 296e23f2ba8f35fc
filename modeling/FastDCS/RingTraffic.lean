import Mathlib.Algebra.GroupWithZero.Nat
import Mathlib.Data.List.Perm.Basic
import Mathlib.Logic.Function.Basic
import FastDCS.GroupWalk
import FastDCS.Master
import FastDCS.Runs

/-!
The messages that go round the masters of a group come to an end: a message and
all that its handling can send are counted together, and every handling makes
the count smaller.
-/

namespace FastDCS.RingTraffic

open FastDCS.Strings
open FastDCS.Messages
open FastDCS.Handlers
open FastDCS.Tracker
open FastDCS.Master
open FastDCS.Connections
open FastDCS.GroupWalk
open FastDCS.Runs

/-- The messages that masters pass on or that the passing brings about. -/
def goesRound : ProtocolType → Bool
  | .election | .coordinator | .masterAskTracker | .masterJoinGroup | .masterGroupChanged => true
  | _ => false

/-- The addresses of the group that a message has not passed. -/
def unvisited (addresses : List Str) (proto : TrackerProtocol) : Nat :=
  addresses.countP fun address => !contains proto.responseSockAddr address

/-- At least the number of messages that will be handled because of this one,
itself included. -/
def weight (addresses : List Str) (proto : TrackerProtocol) : Nat :=
  let n := addresses.length
  let u := unvisited addresses proto
  match proto.protocolType with
  | .masterGroupChanged => u + 1
  | .masterJoinGroup => n + 2
  | .coordinator => (u + 1) * (n + 3)
  | .election => (n + 1) * (n + 3) + 1 + u
  | .masterAskTracker => (n + 1) * (n + 3) + n + 2 + u
  | _ => 0

/-- The weight of what a handler sends. -/
def cost (addresses : List Str) (effects : List Effect) : Nat :=
  (effects.map fun
    | .send _ proto => weight addresses proto
    | _ => 0).sum

variable {addresses : List Str} {own : Str}

theorem unvisited_le (proto : TrackerProtocol) : unvisited addresses proto ≤ addresses.length :=
  List.countP_le_length

theorem cost_append (sent more : List Effect) :
    cost addresses (sent ++ more) = cost addresses sent + cost addresses more := by
  rw [cost, List.map_append, List.sum_append]
  rfl

/-- A list in which one element more passes the test. -/
theorem countP_lt_countP {p q : Str → Bool} (h : ∀ a, q a = true → p a = true)
    (hp : p own = true) (hq : q own = false) {addresses : List Str} (hown : own ∈ addresses) :
    addresses.countP q < addresses.countP p := by
  induction addresses with
  | nil => cases hown
  | cons a rest ih =>
      have hle : rest.countP q ≤ rest.countP p := List.countP_mono_left fun b _ => h b
      rcases List.mem_cons.mp hown with rfl | hrest
      · rw [List.countP_cons_of_pos hp,
          List.countP_cons_of_neg (by rw [hq]; exact Bool.false_ne_true)]
        exact Nat.lt_succ_of_le hle
      · have hlt := ih hrest
        rw [List.countP_cons, List.countP_cons]
        cases hqa : q a with
        | true =>
            rw [h a hqa]
            exact Nat.add_lt_add_right hlt 1
        | false => exact hlt.trans_le (Nat.le_add_right _ _)

/-- A message that passes a master for the first time has one address less to
visit. -/
theorem unvisited_stamped {node : Node} (hnode : Member addresses own node)
    (hown : own ∈ addresses) {proto : TrackerProtocol}
    (hfirst : contains proto.responseSockAddr own = false) :
    unvisited addresses (stamped node proto) < unvisited addresses proto := by
  refine countP_lt_countP (fun a ha => ?_) ?_ ?_ hown
  · rw [Bool.not_eq_true'] at ha ⊢
    refine Bool.eq_false_iff.mpr fun hpassed => ?_
    rw [contains_stamped_of_contains hpassed] at ha
    cases ha
  · rw [hfirst]
    rfl
  · rw [← hnode.server, contains_stamped hnode.isMaster]
    rfl

/-- From `s` to `t` messages were sent of the weight `k` at most, all of which
satisfy `R`. -/
structure Spends (addresses : List Str) (R : TrackerProtocol → Prop) (k : Nat) (s t : Handling) :
    Prop where
  spends : ∃ sent, t.effects = s.effects ++ sent ∧ cost addresses sent ≤ k ∧
    ∀ fd proto, Effect.send fd proto ∈ sent → R proto

/-- At a master of the group the handler sends such messages and comes to its
end. -/
def Costs (addresses : List Str) (own : Str) (R : TrackerProtocol → Prop) (k : Nat) {α : Type}
    (x : Handler α) : Prop :=
  ∀ s, Member addresses own s.node →
    Ensures x s (fun _ t => Member addresses own t.node ∧ Spends addresses R k s t)
      (· ≠ .outOfFuel)

section Rules

variable {R : TrackerProtocol → Prop} {α β : Type} {k l : Nat} {s t u : Handling}

theorem Spends.of_effects_eq (h : t.effects = s.effects) : Spends addresses R k s t :=
  ⟨[], by rw [h, List.append_nil], Nat.zero_le _, fun _ _ hmem => absurd hmem List.not_mem_nil⟩

theorem Spends.trans (hst : Spends addresses R k s t) (htu : Spends addresses R l t u) :
    Spends addresses R (k + l) s u := by
  obtain ⟨sent, hsent, hk, hR⟩ := hst.spends
  obtain ⟨more, hmore, hl, hR'⟩ := htu.spends
  refine ⟨sent ++ more, ?_, ?_, fun fd proto hmem => ?_⟩
  · rw [hmore, hsent, List.append_assoc]
  · rw [cost_append]
    exact Nat.add_le_add hk hl
  · rcases List.mem_append.mp hmem with hold | hnew
    · exact hR fd proto hold
    · exact hR' fd proto hnew

theorem Costs.mono {x : Handler α} (h : Costs addresses own R k x) (hle : k ≤ l) :
    Costs addresses own R l x := by
  intro s hs
  refine (h s hs).imp fun a t ht => ⟨ht.1, ?_⟩
  obtain ⟨sent, hsent, hk, hR⟩ := ht.2.spends
  exact ⟨sent, hsent, hk.trans hle, hR⟩

theorem Costs.bind {x : Handler α} {f : α → Handler β} (hx : Costs addresses own R k x)
    (hf : ∀ a, Costs addresses own R l (f a)) : Costs addresses own R (k + l) (x >>= f) := by
  intro s hs
  rw [ensures_bind]
  refine (hx s hs).imp fun a t ht => ?_
  exact (hf a t ht.1).imp fun b u hu => ⟨hu.1, ht.2.trans hu.2⟩

/-- A first part that sends nothing. -/
theorem Costs.bind_free {x : Handler α} {f : α → Handler β} (hx : Costs addresses own R 0 x)
    (hf : ∀ a, Costs addresses own R k (f a)) : Costs addresses own R k (x >>= f) :=
  (hx.bind hf).mono (Nat.zero_add k).le

theorem costs_pure (a : α) : Costs addresses own R k (pure a : Handler α) :=
  fun _ hs => ⟨hs, .of_effects_eq rfl⟩

theorem Costs.bind_pure {x : Handler α} (hx : Costs addresses own R k x) (b : β) :
    Costs addresses own R k (x >>= fun _ => pure b) :=
  hx.bind (l := 0) fun _ => costs_pure b

theorem Costs.ite {c : Prop} [Decidable c] {x y : Handler α}
    (hx : c → Costs addresses own R k x) (hy : ¬c → Costs addresses own R k y) :
    Costs addresses own R k (if c then x else y) := by
  split_ifs with hc
  · exact hx hc
  · exact hy hc

theorem costs_get : Costs addresses own R 0 (get : Handler Handling) :=
  fun _ hs => ⟨hs, .of_effects_eq rfl⟩

theorem costs_modifyEnv {f : Enviroment → Enviroment}
    (hf : ∀ env, (f env).settings = env.settings) :
    Costs addresses own R 0 (modifyEnv f) := by
  intro s hs
  refine ⟨⟨hs.isMaster, ?_, ?_⟩, .of_effects_eq rfl⟩
  · exact (congrArg Settings.trackerServer (hf _)).trans hs.server
  · exact (congrArg (fun st => splitStringUsing st.trackerGroup ';') (hf _)).trans hs.group

theorem costs_setPrimary (primary : Node → Str) :
    Costs addresses own R 0
      (modifyNode fun node => { node with primarySockaddr := primary node }) :=
  fun _ hs => ⟨⟨hs.isMaster, hs.server, hs.group⟩, .of_effects_eq rfl⟩

theorem costs_signal : Costs addresses own R 0 (emit .masterSignal) := by
  intro s hs
  refine ⟨hs, ⟨[.masterSignal], rfl, le_rfl, fun fd proto hmem => ?_⟩⟩
  cases List.mem_singleton.mp hmem

theorem costs_check (condition : Bool) : Costs addresses own R 0 (check condition) :=
  fun _ hs => ensures_check (Or.inr (by decide)) fun _ => ⟨hs, .of_effects_eq rfl⟩

theorem costs_masterSocketFd (address : Str) :
    Costs addresses own R 0 (masterSocketFd address) := by
  intro s hs
  simp only [masterSocketFd, ensures_bind, ensures_get]
  cases s.node.masterSockets.find? address with
  | none => exact fun h => by cases h
  | some fd => exact ⟨hs, .of_effects_eq rfl⟩

theorem costs_connectMaster (around : Surroundings) (address : Str) :
    Costs addresses own R 0 (connectMaster around address) := by
  intro s hs
  refine (ensures_connectMaster (Or.inr (by decide))).imp fun _ t ht => ?_
  exact ⟨hs.of_connects ht.1, .of_effects_eq ht.1.effects⟩

/-- What is sent is stamped by a master of the group. -/
theorem costs_sendProtocol {proto : TrackerProtocol} {fd : Int}
    (hsent : ∀ node, Member addresses own node →
      R (stamped node proto) ∧ weight addresses (stamped node proto) ≤ k) :
    Costs addresses own R k (sendProtocol proto fd) := by
  intro s hs
  obtain ⟨hR, hk⟩ := hsent s.node hs
  simp only [sendProtocol, ensures_bind, ensures_get, ensures_ite, emit, ensures_modify,
    ensures_pure]
  refine ⟨fun _ => ⟨hs, ⟨_, rfl, ?_, fun fd' proto' hmem => ?_⟩⟩,
    fun _ => ⟨hs, .of_effects_eq rfl⟩⟩
  · simpa [cost] using hk
  · obtain ⟨rfl, rfl⟩ : fd' = fd ∧ proto' = stamped s.node proto := by simpa using hmem
    exact hR

end Rules

theorem weight_election {proto : TrackerProtocol} (h : proto.protocolType = .election) :
    weight addresses proto ≤ (addresses.length + 1) * (addresses.length + 3) + 1 +
      addresses.length := by
  have hle : unvisited addresses proto ≤ addresses.length := unvisited_le proto
  simp only [weight, h]
  omega

theorem weight_coordinator {proto : TrackerProtocol} (h : proto.protocolType = .coordinator) :
    weight addresses proto ≤ (addresses.length + 1) * (addresses.length + 3) := by
  have hle : unvisited addresses proto ≤ addresses.length := unvisited_le proto
  simp only [weight, h]
  exact Nat.mul_le_mul_right _ (Nat.succ_le_succ hle)

theorem weight_masterJoinGroup {proto : TrackerProtocol}
    (h : proto.protocolType = .masterJoinGroup) :
    weight addresses proto = addresses.length + 2 := by
  simp only [weight, h]

theorem weight_masterGroupChanged {proto : TrackerProtocol}
    (h : proto.protocolType = .masterGroupChanged) :
    weight addresses proto ≤ addresses.length + 1 := by
  have hle : unvisited addresses proto ≤ addresses.length := unvisited_le proto
  simp only [weight, h]
  omega

section Handlers

variable {pb : Protobuf} {around : Surroundings} {R : TrackerProtocol → Prop} {k : Nat}
  (hdistinct : addresses.Nodup) (hown : own ∈ addresses)
  (hfuel : addresses.length ≤ around.loopFuel)

theorem costs_upgradeTracker : Costs addresses own R k upgradeTracker := by
  refine Costs.bind_free (costs_modifyEnv ?_) fun _ => ?_
  · exact fun _ => rfl
  · exact costs_signal.bind_free fun _ => costs_pure true

theorem costs_becomePrimary : Costs addresses own R k becomePrimary :=
  (costs_setPrimary _).bind_free fun _ => costs_upgradeTracker

theorem costs_connectOnlineMaster (allMaster : Str) :
    Costs addresses own R 0 (connectOnlineMaster around allMaster) := by
  rw [connectOnlineMaster]
  induction splitStringUsing allMaster ';' with
  | nil => exact costs_pure _
  | cons address rest ih =>
      refine Costs.bind_free ?_ fun _ => ih
      exact (costs_connectMaster around address).bind_free fun _ => costs_pure _

include hdistinct hown hfuel

theorem costs_findNextMaster : Costs addresses own R 0 (findNextMaster around) := by
  intro s hs
  refine (ensures_findNextMaster_returns hdistinct hs hown hfuel fun _ h => h).imp fun _ t ht => ?_
  exact ⟨hs.of_connects ht, .of_effects_eq ht.effects⟩

theorem costs_continueTransferProto {proto : TrackerProtocol}
    (hsent : ∀ node, Member addresses own node →
      R (stamped node proto) ∧ weight addresses (stamped node proto) ≤ k) :
    Costs addresses own R k (continueTransferProto around proto) := by
  refine (costs_findNextMaster hdistinct hown hfuel).bind_free fun fd => ?_
  refine Costs.ite (fun _ => costs_pure _) fun _ => ?_
  exact ((costs_sendProtocol hsent).bind fun _ => costs_pure (k := 0) _).mono le_rfl

theorem costs_election (hR : ∀ proto, proto.protocolType = .election → R proto) :
    Costs addresses own R
      ((addresses.length + 1) * (addresses.length + 3) + 1 + addresses.length)
      (election around) := by
  refine (costs_findNextMaster hdistinct hown hfuel).bind_free fun fd => ?_
  refine Costs.ite (fun _ => costs_becomePrimary) fun _ => ?_
  refine costs_get.bind_free fun h => ?_
  exact costs_sendProtocol fun node _ => ⟨hR _ rfl, weight_election rfl⟩

theorem costs_coordinator (hR : ∀ proto, proto.protocolType = .coordinator → R proto)
    (trackerAddr : Str) :
    Costs addresses own R ((addresses.length + 1) * (addresses.length + 3))
      (coordinator pb around trackerAddr) := by
  refine (costs_findNextMaster hdistinct hown hfuel).bind_free fun fd => ?_
  refine Costs.ite (fun _ => costs_becomePrimary) fun _ => ?_
  refine costs_get.bind_free fun h => ?_
  intro s hs
  rw [ensures_bind]
  refine ensures_addProtoFdcsTime pb around (Or.inl (by decide)) fun pairs => ?_
  exact costs_sendProtocol (fun node _ => ⟨hR _ rfl, weight_coordinator rfl⟩) s hs

theorem costs_masterGroupChanged
    (hR : ∀ proto, proto.protocolType = .masterGroupChanged → R proto) :
    Costs addresses own R (addresses.length + 1) (masterGroupChanged around) := by
  refine costs_get.bind_free fun h => ?_
  refine Costs.ite (fun _ => costs_pure _) fun _ => ?_
  refine (costs_findNextMaster hdistinct hown hfuel).bind_free fun fd => ?_
  refine Costs.ite (fun _ => costs_pure _) fun _ => ?_
  refine costs_get.bind_free fun h => ?_
  exact costs_sendProtocol fun node _ => ⟨hR _ rfl, weight_masterGroupChanged rfl⟩

omit hdistinct hown hfuel in
theorem costs_joinMasterGroup (hR : ∀ proto, proto.protocolType = .masterJoinGroup → R proto)
    (proto : TrackerProtocol) :
    Costs addresses own R (addresses.length + 2) (joinMasterGroup pb around proto) := by
  refine costs_get.bind_free fun h => ?_
  refine Costs.ite (fun _ => costs_pure _) fun _ => ?_
  refine (costs_connectMaster around _).bind_free fun ok => ?_
  refine Costs.ite (fun _ => ?_) fun _ => costs_pure _
  refine Costs.bind_free (costs_modifyEnv ?_) fun _ => ?_
  · exact fun _ => rfl
  · refine (costs_masterSocketFd _).bind_free fun fd => ?_
    refine costs_get.bind_free fun h => ?_
    exact costs_sendProtocol fun node _ => ⟨hR _ rfl, (weight_masterJoinGroup rfl).le⟩

/-- A message sent while another is handled goes round, and if it is the same
message passed on, it is so for the first time here and remembers it. -/
structure Continues (own : Str) (handled sent : TrackerProtocol) : Prop where
  round : goesRound sent.protocolType = true
  first : sent.protocolType = handled.protocolType → contains handled.responseSockAddr own = false
  passed : sent.protocolType = handled.protocolType → contains sent.responseSockAddr own = true
  kept : sent.protocolType = handled.protocolType →
    ∀ a, contains handled.responseSockAddr a = true → contains sent.responseSockAddr a = true

omit hdistinct hown hfuel

variable {proto : TrackerProtocol}

theorem continues_of_ne {sent : TrackerProtocol} (hround : goesRound sent.protocolType = true)
    (hne : sent.protocolType ≠ proto.protocolType) : Continues own proto sent where
  round := hround
  first h := absurd h hne
  passed h := absurd h hne
  kept h := absurd h hne

include hdistinct hown hfuel

/-- The message is passed on, with what was changed besides its type and the
addresses it has passed. -/
theorem costs_pass {changed : TrackerProtocol} (hround : goesRound proto.protocolType = true)
    (hfirst : contains proto.responseSockAddr own = false)
    (htype : changed.protocolType = proto.protocolType)
    (haddresses : changed.responseSockAddr = proto.responseSockAddr)
    (hk : ∀ sent, sent.protocolType = proto.protocolType →
      unvisited addresses sent < unvisited addresses proto → weight addresses sent ≤ k) :
    Costs addresses own (Continues own proto) k (continueTransferProto around changed) := by
  refine costs_continueTransferProto hdistinct hown hfuel fun node hnode => ⟨?_, ?_⟩
  · exact
      { round := by
          change goesRound changed.protocolType = true
          rw [htype, hround]
        first := fun _ => hfirst
        passed := fun _ => by rw [← hnode.server]; exact contains_stamped hnode.isMaster changed
        kept := fun _ a ha => contains_stamped_of_contains (by rw [haddresses]; exact ha) }
  · refine hk _ htype ?_
    have hlt := unvisited_stamped hnode hown (by rw [haddresses]; exact hfirst)
    have hsame : unvisited addresses changed = unvisited addresses proto := by
      rw [unvisited, haddresses, unvisited]
    exact hlt.trans_eq hsame

theorem costs_processElection (hp : proto.protocolType = .election) {closed : Bool}
    (hfirst : closed = false → contains proto.responseSockAddr own = false) :
    Costs addresses own (Continues own proto) (weight addresses proto - 1)
      (processElection pb around closed proto) := by
  have hweight : ∀ sent : TrackerProtocol, sent.protocolType = .election →
      weight addresses sent =
        (addresses.length + 1) * (addresses.length + 3) + 1 + unvisited addresses sent := by
    intro sent hsent
    simp only [weight, hsent]
  have hself := hweight proto hp
  refine Costs.ite (fun _ => ?_) fun hclosed => ?_
  · refine costs_get.bind_free fun h => ?_
    dsimp only
    split
    · next trackerAddr _ =>
        have hcoordinator : Costs addresses own (Continues own proto) _
            (coordinator pb around trackerAddr) :=
          costs_coordinator hdistinct hown hfuel (fun sent hsent => continues_of_ne
            (by rw [hsent]; rfl) (by rw [hsent, hp]; decide)) trackerAddr
        exact (hcoordinator.bind_pure true).mono (by omega)
    · exact costs_pure true
  · refine (costs_pass hdistinct hown hfuel (by rw [hp]; rfl)
      (hfirst (Bool.eq_false_iff.mpr hclosed)) rfl rfl fun sent hsent hlt => ?_).bind_pure true
    rw [hweight sent (hsent.trans hp), hself]
    omega

theorem costs_processCoordinator (hp : proto.protocolType = .coordinator) {closed : Bool}
    (hfirst : closed = false → contains proto.responseSockAddr own = false) :
    Costs addresses own (Continues own proto) (weight addresses proto - 1)
      (processCoordinator pb around closed proto) := by
  have hweight : ∀ sent : TrackerProtocol, sent.protocolType = .coordinator →
      weight addresses sent = (unvisited addresses sent + 1) * (addresses.length + 3) := by
    intro sent hsent
    simp only [weight, hsent]
  have hself := hweight proto hp
  refine (costs_check _).bind_free fun _ => ?_
  refine (costs_setPrimary _).bind_free fun _ => ?_
  refine Costs.ite (fun _ => ?_) fun hclosed => ?_
  · refine costs_get.bind_free fun h => ?_
    exact Costs.ite (fun _ => costs_upgradeTracker.bind_pure true) fun _ => costs_pure _
  · have hjoin : Costs addresses own (Continues own proto) (addresses.length + 2)
        (joinMasterGroup pb around proto) :=
      costs_joinMasterGroup (fun sent hsent => continues_of_ne (by rw [hsent]; rfl)
        (by rw [hsent, hp]; decide)) proto
    have hpass : Costs addresses own (Continues own proto)
        (unvisited addresses proto * (addresses.length + 3))
        (continueTransferProto around proto) := by
      refine costs_pass hdistinct hown hfuel (by rw [hp]; rfl)
        (hfirst (Bool.eq_false_iff.mpr hclosed)) rfl rfl fun sent hsent hlt => ?_
      rw [hweight sent (hsent.trans hp)]
      exact Nat.mul_le_mul_right _ hlt
    refine (hjoin.bind fun _ => hpass.bind_pure true).mono ?_
    rw [hself, Nat.add_mul, Nat.one_mul]
    omega

theorem costs_processAskTracker (hp : proto.protocolType = .masterAskTracker) {closed : Bool}
    (hfirst : closed = false → contains proto.responseSockAddr own = false) :
    Costs addresses own (Continues own proto) (weight addresses proto - 1)
      (processAskTracker pb around closed proto) := by
  have hweight : ∀ sent : TrackerProtocol, sent.protocolType = .masterAskTracker →
      weight addresses sent = (addresses.length + 1) * (addresses.length + 3) +
        addresses.length + 2 + unvisited addresses sent := by
    intro sent hsent
    simp only [weight, hsent]
  have hself := hweight proto hp
  have helection : Costs addresses own (Continues own proto) (weight addresses proto - 1)
      (election around) := by
    have hsends : Costs addresses own (Continues own proto) _ (election around) :=
      costs_election hdistinct hown hfuel fun sent hsent => continues_of_ne
        (by rw [hsent]; rfl) (by rw [hsent, hp]; decide)
    exact hsends.mono (by omega)
  have hpass : closed = false → ∀ changed : TrackerProtocol,
      changed.protocolType = proto.protocolType →
      changed.responseSockAddr = proto.responseSockAddr →
      Costs addresses own (Continues own proto) (weight addresses proto - 1) (do
        continueTransferProto around changed
        return true) := by
    intro hclosed changed htype haddresses
    apply Costs.bind_pure
    apply costs_pass hdistinct hown hfuel (by rw [hp]; rfl) (hfirst hclosed) htype haddresses
    intro sent hsent hlt
    rw [hweight sent (hsent.trans hp), hself]
    omega
  refine costs_get.bind_free fun h => ?_
  intro s hs
  rw [ensures_bind]
  refine ensures_addPrimaryTime pb around (Or.inl (by decide)) fun pairs => ?_
  refine Costs.ite (fun _ => ?_) (fun hopen => ?_) s hs
  · refine Costs.ite (fun _ => helection) fun _ => ?_
    refine (costs_check _).bind_free fun _ => ?_
    refine (costs_setPrimary _).bind_free fun _ => ?_
    refine (costs_connectMaster around _).bind_free fun _ => ?_
    have hjoin : Costs addresses own (Continues own proto) _
        (joinMasterGroup pb around { proto with keyValuesPairs := pairs }) :=
      costs_joinMasterGroup (fun sent hsent => continues_of_ne (by rw [hsent]; rfl)
        (by rw [hsent, hp]; decide)) _
    have hpos : 0 < (addresses.length + 1) * (addresses.length + 3) :=
      Nat.mul_pos (Nat.succ_pos _) (Nat.succ_pos _)
    exact (hjoin.bind_pure true).mono (by omega)
  · have hclosed : closed = false := Bool.eq_false_iff.mpr hopen
    refine Costs.ite (fun _ => ?_) fun _ => ?_
    · dsimp only
      split
      · exact hpass hclosed _ rfl rfl
      · exact hpass hclosed _ rfl rfl
    · exact Costs.ite (fun _ => helection) fun _ => hpass hclosed _ rfl rfl

theorem costs_processGroupChanged (hp : proto.protocolType = .masterGroupChanged) {closed : Bool}
    (hfirst : closed = false → contains proto.responseSockAddr own = false) :
    Costs addresses own (Continues own proto) (weight addresses proto - 1) (do
      if !closed then
        connectOnlineMaster around proto.requestArgs
        continueTransferProto around proto
      return true) := by
  have hweight : ∀ sent : TrackerProtocol, sent.protocolType = .masterGroupChanged →
      weight addresses sent = unvisited addresses sent + 1 := by
    intro sent hsent
    simp only [weight, hsent]
  refine Costs.ite (fun hopen => ?_) fun _ => costs_pure true
  have hclosed : closed = false := by simpa using hopen
  refine (costs_connectOnlineMaster _).bind_free fun _ => ?_
  refine Costs.bind_pure ?_ true
  apply costs_pass hdistinct hown hfuel (by rw [hp]; rfl) (hfirst hclosed) rfl rfl
  intro sent hsent hlt
  rw [hweight sent (hsent.trans hp), hweight proto hp]
  omega

theorem costs_processJoinGroup (hp : proto.protocolType = .masterJoinGroup) :
    Costs addresses own (Continues own proto) (weight addresses proto - 1) (do
      let _ ← connectMaster around proto.requestSockAddr
      let _ ← masterGroupChanged around
      return true) := by
  refine (costs_connectMaster around _).bind_free fun _ => ?_
  rw [weight_masterJoinGroup hp]
  apply Costs.bind_pure
  apply costs_masterGroupChanged hdistinct hown hfuel
  intro sent hsent
  exact continues_of_ne (by rw [hsent]; rfl) (by rw [hsent, hp]; decide)

omit hdistinct hown hfuel in
theorem contains_eq_false_of_closedCircle {node : Node} (hnode : Member addresses own node)
    (hopen : closedCircle node proto = false) : contains proto.responseSockAddr own = false := by
  rw [closedCircle, hnode.server, Bool.or_eq_false_iff] at hopen
  exact hopen.2

theorem costs_protocolProcess (hround : goesRound proto.protocolType = true) (socketFd : Int) :
    Costs addresses own (Continues own proto) (weight addresses proto - 1)
      (protocolProcess pb around socketFd proto) := by
  intro s hs
  rw [protocolProcess, ensures_bind, ensures_get]
  have hfirst : closedCircle s.node proto = false → contains proto.responseSockAddr own = false :=
    contains_eq_false_of_closedCircle hs
  cases hp : proto.protocolType with
  | election => exact costs_processElection hdistinct hown hfuel hp hfirst s hs
  | coordinator => exact costs_processCoordinator hdistinct hown hfuel hp hfirst s hs
  | masterAskTracker => exact costs_processAskTracker hdistinct hown hfuel hp hfirst s hs
  | masterJoinGroup => exact costs_processJoinGroup hdistinct hown hfuel hp s hs
  | masterGroupChanged => exact costs_processGroupChanged hdistinct hown hfuel hp hfirst s hs
  | _ =>
      rw [hp] at hround
      cases hround

end Handlers

theorem weight_pos {proto : TrackerProtocol} (hround : goesRound proto.protocolType = true) :
    0 < weight addresses proto := by
  have hpos : 0 < (addresses.length + 1) * (addresses.length + 3) :=
    Nat.mul_pos (Nat.succ_pos _) (Nat.succ_pos _)
  unfold weight
  cases hp : proto.protocolType with
  | election | masterAskTracker | masterJoinGroup | masterGroupChanged =>
      dsimp only
      omega
  | coordinator => exact Nat.mul_pos (Nat.succ_pos _) (Nat.succ_pos _)
  | _ =>
      rw [hp] at hround
      cases hround

/-- A message on its way to the master at `receiver`, and the masters that have
passed it on. -/
structure Envelope where
  receiver : Str
  proto : TrackerProtocol
  forwardedBy : List Str := []

structure State where
  /-- The masters that are up, at their addresses. -/
  masters : Str → Option Node
  inFlight : List Envelope

/-- One of the messages arrives; which connections the master finds open
meanwhile and where its descriptors lead is open. -/
structure Delivery where
  index : Nat
  socketFd : Int
  nowTime : Int
  connect : Nat → Str → Option Int
  uninitialised : Int
  route : Int → Str

def Delivery.around (delivery : Delivery) (node : Node) : Surroundings where
  nowTime := delivery.nowTime
  connect := delivery.connect
  uninitialised := delivery.uninitialised
  loopFuel := (splitStringUsing node.trackerGroup ';').length

/-- The messages a master has sent while it handled one. No handler makes a new
message of the type it handles, so one of the same type is the message itself
passed on. -/
def sentBy (handled : Envelope) (route : Int → Str) (effects : List Effect) : List Envelope :=
  effects.filterMap fun
    | .send fd proto =>
        some
          { receiver := route fd
            proto := proto
            forwardedBy :=
              if proto.protocolType = handled.proto.protocolType then
                handled.receiver :: handled.forwardedBy
              else [] }
    | _ => none

/-- A message to a master that is down is lost, and a master that stops with a
fault is down from then on, together with what it has not sent. A handler that
does not return takes no step. -/
def step (pb : Protobuf) (s : State) (delivery : Delivery) : Option State :=
  match s.inFlight[delivery.index]? with
  | none => none
  | some envelope =>
      let left := s.inFlight.eraseIdx delivery.index
      match s.masters envelope.receiver with
      | none => some { s with inFlight := left }
      | some node =>
          match (protocolProcess pb (delivery.around node) delivery.socketFd envelope.proto).run
              { node := node } with
          | .ok r =>
              some
                { masters := Function.update s.masters envelope.receiver (some r.2.node)
                  inFlight := left ++ sentBy envelope delivery.route r.2.effects }
          | .error .outOfFuel => none
          | .error _ =>
              some
                { masters := Function.update s.masters envelope.receiver none
                  inFlight := left }

def load (addresses : List Str) (inFlight : List Envelope) : Nat :=
  (inFlight.map fun envelope => weight addresses envelope.proto).sum

def Members (addresses : List Str) (masters : Str → Option Node) : Prop :=
  ∀ own node, masters own = some node → own ∈ addresses ∧ Member addresses own node

structure Travels (envelope : Envelope) : Prop where
  round : goesRound envelope.proto.protocolType = true
  once : envelope.forwardedBy.Nodup
  passed : ∀ own ∈ envelope.forwardedBy, contains envelope.proto.responseSockAddr own = true

section System

variable {pb : Protobuf} {s t : State} {delivery : Delivery}

theorem Members.update {masters : Str → Option Node} (h : Members addresses masters)
    (hown : own ∈ addresses) {up : Option Node}
    (hup : ∀ node, up = some node → Member addresses own node) :
    Members addresses (Function.update masters own up) := by
  intro other node hother
  rcases eq_or_ne other own with rfl | hne
  · rw [Function.update_self] at hother
    exact ⟨hown, hup node hother⟩
  · rw [Function.update_of_ne hne] at hother
    exact h other node hother

theorem load_append (inFlight more : List Envelope) :
    load addresses (inFlight ++ more) = load addresses inFlight + load addresses more := by
  rw [load, List.map_append, List.sum_append]
  rfl

theorem load_sentBy (handled : Envelope) (route : Int → Str) (effects : List Effect) :
    load addresses (sentBy handled route effects) = cost addresses effects := by
  induction effects with
  | nil => rfl
  | cons effect rest ih =>
      cases effect with
      | send fd proto => exact congrArg (weight addresses proto + ·) ih
      | _ => exact ih.trans (Nat.zero_add _).symm

theorem load_eraseIdx {inFlight : List Envelope} {index : Nat} {envelope : Envelope}
    (h : inFlight[index]? = some envelope) :
    weight addresses envelope.proto + load addresses (inFlight.eraseIdx index) =
      load addresses inFlight := by
  obtain ⟨hlt, rfl⟩ := List.getElem?_eq_some_iff.mp h
  have hperm := (List.getElem_cons_eraseIdx_perm hlt).map fun e => weight addresses e.proto
  exact hperm.sum_eq

theorem mem_sentBy {handled envelope : Envelope} {route : Int → Str} {effects : List Effect}
    (h : envelope ∈ sentBy handled route effects) :
    ∃ fd, .send fd envelope.proto ∈ effects ∧
      envelope.forwardedBy =
        if envelope.proto.protocolType = handled.proto.protocolType then
          handled.receiver :: handled.forwardedBy
        else [] := by
  obtain ⟨effect, heffect, hsent⟩ := List.mem_filterMap.mp h
  cases effect with
  | send fd proto =>
      cases hsent
      exact ⟨fd, heffect, rfl⟩
  | _ => cases hsent

/-- The master did not find itself among the addresses passed, so it has not
passed the message on before. -/
theorem travels_of_continues {handled envelope : Envelope} (hhandled : Travels handled)
    (h : Continues handled.receiver handled.proto envelope.proto)
    (hforwarded : envelope.forwardedBy =
      if envelope.proto.protocolType = handled.proto.protocolType then
        handled.receiver :: handled.forwardedBy
      else []) : Travels envelope := by
  refine ⟨h.round, ?_, ?_⟩
  · rw [hforwarded]
    split_ifs with htype
    · refine List.nodup_cons.mpr ⟨fun hmem => ?_, hhandled.once⟩
      have hpassed := hhandled.passed _ hmem
      rw [h.first htype] at hpassed
      cases hpassed
    · exact List.nodup_nil
  · rw [hforwarded]
    split_ifs with htype
    · intro own hmem
      rcases List.mem_cons.mp hmem with rfl | hold
      · exact h.passed htype
      · exact h.kept htype own (hhandled.passed own hold)
    · exact fun own hmem => absurd hmem List.not_mem_nil

variable (pb delivery) in
theorem handling_spends (hdistinct : addresses.Nodup) {node : Node} (hown : own ∈ addresses)
    (hnode : Member addresses own node) {proto : TrackerProtocol}
    (hround : goesRound proto.protocolType = true) :
    Ensures (protocolProcess pb (delivery.around node) delivery.socketFd proto) { node := node }
      (fun _ t => Member addresses own t.node ∧
        Spends addresses (Continues own proto) (weight addresses proto - 1) { node := node } t)
      (· ≠ .outOfFuel) := by
  refine costs_protocolProcess hdistinct hown ?_ hround _ _ hnode
  exact (congrArg List.length hnode.group).ge

/-- The masters that are up belong to the group, and what is on its way goes
round. -/
structure Circulates (addresses : List Str) (s : State) : Prop where
  members : Members addresses s.masters
  travels : ∀ envelope ∈ s.inFlight, Travels envelope

/-- Every handling takes more off the load than it adds. -/
theorem circulates_step (hdistinct : addresses.Nodup) (hs : Circulates addresses s)
    (hstep : step pb s delivery = some t) :
    Circulates addresses t ∧ load addresses t.inFlight < load addresses s.inFlight := by
  unfold step at hstep
  cases hfind : s.inFlight[delivery.index]? with
  | none =>
      rw [hfind] at hstep
      cases hstep
  | some envelope =>
      have henvelope := hs.travels envelope (List.mem_of_getElem? hfind)
      have hpos : 0 < weight addresses envelope.proto := weight_pos henvelope.round
      have hload : weight addresses envelope.proto +
          load addresses (s.inFlight.eraseIdx delivery.index) = load addresses s.inFlight :=
        load_eraseIdx hfind
      have hleft : ∀ other ∈ s.inFlight.eraseIdx delivery.index, Travels other :=
        fun other hother => hs.travels other (List.mem_of_mem_eraseIdx hother)
      have hlost : load addresses (s.inFlight.eraseIdx delivery.index) <
          load addresses s.inFlight := by
        omega
      simp only [hfind] at hstep
      cases hmaster : s.masters envelope.receiver with
      | none =>
          simp only [hmaster] at hstep
          cases hstep
          exact ⟨⟨hs.members, hleft⟩, hlost⟩
      | some node =>
          obtain ⟨hown, hnode⟩ := hs.members _ _ hmaster
          have hspends := handling_spends pb delivery hdistinct hown hnode henvelope.round
          simp only [hmaster] at hstep
          cases hrun : (protocolProcess pb (delivery.around node) delivery.socketFd
              envelope.proto).run { node := node } with
          | ok r =>
              obtain ⟨hnode', sent, hsent, hcost, hcontinues⟩ := hspends.of_run_eq_ok hrun
              rw [hrun] at hstep
              cases hstep
              refine ⟨⟨hs.members.update hown fun _ h => Option.some.inj h ▸ hnode', ?_⟩, ?_⟩
              · intro other hother
                rcases List.mem_append.mp hother with hold | hnew
                · exact hleft other hold
                · obtain ⟨fd, hmem, hforwarded⟩ := mem_sentBy hnew
                  rw [hsent, List.nil_append] at hmem
                  exact travels_of_continues henvelope (hcontinues fd _ hmem) hforwarded
              · rw [load_append, load_sentBy, hsent, List.nil_append]
                omega
          | error fault =>
              have hdown : Members addresses
                  (Function.update s.masters envelope.receiver none) :=
                hs.members.update hown fun _ h => nomatch h
              rw [hrun] at hstep
              cases fault with
              | outOfFuel => cases hstep
              | _ =>
                  cases hstep
                  exact ⟨⟨hdown, hleft⟩, hlost⟩

theorem step_isSome (hdistinct : addresses.Nodup) (hs : Circulates addresses s)
    (hindex : delivery.index < s.inFlight.length) : (step pb s delivery).isSome = true := by
  unfold step
  obtain ⟨envelope, hfind⟩ : ∃ envelope, s.inFlight[delivery.index]? = some envelope :=
    ⟨_, List.getElem?_eq_getElem hindex⟩
  simp only [hfind]
  cases hmaster : s.masters envelope.receiver with
  | none => rfl
  | some node =>
      obtain ⟨hown, hnode⟩ := hs.members _ _ hmaster
      have hround := (hs.travels envelope (List.mem_of_getElem? hfind)).round
      have hspends := handling_spends pb delivery hdistinct hown hnode hround
      dsimp only
      cases hrun : (protocolProcess pb (delivery.around node) delivery.socketFd
          envelope.proto).run { node := node } with
      | ok r => rfl
      | error fault =>
          have hreturns := hspends.of_run_eq_error hrun
          cases fault with
          | outOfFuel => exact absurd rfl hreturns
          | _ => rfl

theorem circulates_run (hdistinct : addresses.Nodup) (hs : Circulates addresses s)
    {as : List Delivery} (hrun : run (step pb) s as = some t) : Circulates addresses t :=
  invariant (fun _ _ _ hs h => (circulates_step hdistinct hs h).1) hs hrun

end System

/-- From any messages that go round on their way between the masters of a group,
in any order of delivery and with any connections, only so many messages are
handled as the load allows, every handling comes to its end, and no master
passes on the same message twice. -/
theorem ring_traffic_ends {pb : Protobuf} {addresses : List Str} {s t : State}
    {as : List Delivery} (hdistinct : addresses.Nodup) (hmembers : Members addresses s.masters)
    (hround : ∀ envelope ∈ s.inFlight,
      goesRound envelope.proto.protocolType = true ∧ envelope.forwardedBy = [])
    (hrun : run (step pb) s as = some t) :
    as.length + load addresses t.inFlight ≤ load addresses s.inFlight ∧
      (∀ envelope ∈ t.inFlight, envelope.forwardedBy.Nodup) ∧
      ∀ delivery : Delivery, delivery.index < t.inFlight.length →
        (step pb t delivery).isSome = true := by
  have hs : Circulates addresses s := by
    refine ⟨hmembers, fun envelope henvelope => ?_⟩
    obtain ⟨htype, hnone⟩ := hround envelope henvelope
    refine ⟨htype, ?_, ?_⟩
    · rw [hnone]
      exact List.nodup_nil
    · rw [hnone]
      exact fun own hmem => absurd hmem List.not_mem_nil
  have ht : Circulates addresses t := circulates_run hdistinct hs hrun
  refine ⟨?_, fun envelope henvelope => (ht.travels envelope henvelope).once,
    fun delivery hindex => step_isSome hdistinct ht hindex⟩
  have hstep : ∀ (s : State) (delivery : Delivery) (t : State), Circulates addresses s →
      step pb s delivery = some t →
      Circulates addresses t ∧ load addresses t.inFlight < load addresses s.inFlight :=
    fun _ _ _ hs h => circulates_step hdistinct hs h
  exact length_add_le (fun s : State => load addresses s.inFlight) hstep hs hrun

section TwoMasters

def firstAddress : Str := "10.0.0.1:1".toList
def secondAddress : Str := "10.0.0.2:1".toList

def masterOfTwo (trackerServer : Str) : Node where
  fdcsEnv :=
    { settings :=
        { trackerGroup := "10.0.0.1:1;10.0.0.2:1".toList, trackerServer := trackerServer } }

def asked : State where
  masters address :=
    if address = firstAddress ∨ address = secondAddress then some (masterOfTwo address) else none
  inFlight :=
    [{ receiver := firstAddress
       proto := { newTrackerProtocol (masterOfTwo secondAddress) .masterAskTracker with
         responseSockAddr := secondAddress } }]

def arrival (route : Str) : Delivery where
  index := 0
  socketFd := 7
  nowTime := 1
  connect _ _ := some 5
  uninitialised := 0
  route _ := route

/-- A question for the primary goes round, becomes an election and then an
announcement, which the second master ends. -/
theorem ring_traffic_ends_askTracker :
    ∃ t, run (step plainProtobuf) asked
        [arrival secondAddress, arrival firstAddress, arrival secondAddress] = some t ∧
      3 + load [firstAddress, secondAddress] t.inFlight ≤
        load [firstAddress, secondAddress] asked.inFlight := by
  have hsome : (run (step plainProtobuf) asked
      [arrival secondAddress, arrival firstAddress, arrival secondAddress]).isSome = true := by
    decide +kernel
  obtain ⟨t, ht⟩ := Option.isSome_iff_exists.mp hsome
  have hmembers : Members [firstAddress, secondAddress] asked.masters := by
    intro own node hnode
    simp only [asked] at hnode
    split_ifs at hnode with hown
    cases hnode
    refine ⟨by simpa using hown, ⟨rfl, rfl, ?_⟩⟩
    rcases hown with rfl | rfl <;> decide
  exact ⟨t, ht, (ring_traffic_ends (by decide) hmembers (by decide) ht).1⟩

end TwoMasters

end FastDCS.RingTraffic
