import FastDCS.Tracker

/-!
What connecting to other masters does to a node: the sockets grow by
descriptors the connection attempts yield, and nothing else changes.
-/

namespace FastDCS.Connections

open FastDCS.Strings
open FastDCS.Messages
open FastDCS.Handlers
open FastDCS.Tracker

variable {around : Surroundings} {E : Fault → Prop}

/-- From `s` to `t` the handler has done nothing but connect to masters. -/
structure Connects (around : Surroundings) (s t : Handling) : Prop where
  effects : t.effects = s.effects
  fdcsEnv : t.node.fdcsEnv = s.node.fdcsEnv
  isMaster : t.node.isMaster = s.node.isMaster
  primary : t.node.primarySockaddr = s.node.primarySockaddr
  kept : ∀ address fd, s.node.masterSockets.find? address = some fd →
    t.node.masterSockets.find? address = some fd
  opened : ∀ address fd, t.node.masterSockets.find? address = some fd →
    s.node.masterSockets.find? address = some fd ∨ ∃ k, around.connect k address = some fd

theorem Connects.refl (s : Handling) : Connects around s s where
  effects := rfl
  fdcsEnv := rfl
  isMaster := rfl
  primary := rfl
  kept _ _ h := h
  opened _ _ h := Or.inl h

theorem Connects.trans {s t u : Handling} (hst : Connects around s t)
    (htu : Connects around t u) : Connects around s u where
  effects := htu.effects.trans hst.effects
  fdcsEnv := htu.fdcsEnv.trans hst.fdcsEnv
  isMaster := htu.isMaster.trans hst.isMaster
  primary := htu.primary.trans hst.primary
  kept address fd h := htu.kept address fd (hst.kept address fd h)
  opened address fd h := (htu.opened address fd h).elim (hst.opened address fd) Or.inr

theorem Connects.trackerServer {s t : Handling} (h : Connects around s t) :
    t.node.trackerServer = s.node.trackerServer := by
  rw [Node.trackerServer, Node.trackerServer, h.fdcsEnv]

theorem Connects.trackerGroup {s t : Handling} (h : Connects around s t) :
    t.node.trackerGroup = s.node.trackerGroup := by
  rw [Node.trackerGroup, Node.trackerGroup, h.fdcsEnv]

theorem Connects.iAmPrimaryMaster {s t : Handling} (h : Connects around s t) :
    t.node.iAmPrimaryMaster = s.node.iAmPrimaryMaster := by
  rw [Node.iAmPrimaryMaster, Node.iAmPrimaryMaster, h.isMaster, h.primary, h.trackerServer]

theorem connects_attempt (s : Handling) :
    Connects around s { s with attempts := s.attempts + 1 } where
  effects := rfl
  fdcsEnv := rfl
  isMaster := rfl
  primary := rfl
  kept _ _ h := h
  opened _ _ h := Or.inl h

theorem connects_register {s : Handling} {address : Str} {fd : Int} {k : Nat}
    (hnone : s.node.masterSockets.find? address = none)
    (hconnect : around.connect k address = some fd) (buffers : List Int) :
    Connects around s { s with
      node := { s.node with
        masterSockets := s.node.masterSockets.set address fd
        sendBuffers := buffers } } where
  effects := rfl
  fdcsEnv := rfl
  isMaster := rfl
  primary := rfl
  kept other fd' h := by
    have hne : other ≠ address := by
      rintro rfl
      rw [hnone] at h
      cases h
    rw [OrderedMap.find?_set, if_neg hne, h]
  opened other fd' h := by
    rw [OrderedMap.find?_set] at h
    split_ifs at h with heq
    · subst heq
      exact Or.inr ⟨k, hconnect.trans h⟩
    · exact Or.inl h

theorem ensures_check {condition : Bool} {s : Handling} {Q : PUnit → Handling → Prop}
    (hcheck : condition = true ∨ E .checkFailed) (hQ : condition = true → Q ⟨⟩ s) :
    Ensures (check condition) s Q E := by
  cases condition with
  | true => exact hQ rfl
  | false => exact hcheck.resolve_left Bool.false_ne_true

theorem ensures_masterSocketFd {s : Handling} {address : Str} {fd : Int}
    {Q : Int → Handling → Prop} (hfind : s.node.masterSockets.find? address = some fd)
    (hQ : Q fd s) : Ensures (masterSocketFd address) s Q E := by
  simp only [masterSocketFd, ensures_bind, ensures_get, hfind]
  exact hQ

theorem ensures_addSocketResource {s : Handling} {fd : Int} {Q : PUnit → Handling → Prop}
    (hQ : ∀ buffers, Q ⟨⟩ { s with node := { s.node with sendBuffers := buffers } }) :
    Ensures (addSocketResource fd) s Q E := by
  rw [addSocketResource, modifyNode, ensures_modify]
  split_ifs
  · exact hQ s.node.sendBuffers
  · exact hQ (fd :: s.node.sendBuffers)

/-- `ConnectMaster` succeeds for an address of the group that has a socket or
takes the connection. -/
theorem ensures_connectMaster {s : Handling} {address : Str}
    (hcheck : (splitStringUsing address ':').length = 2 ∨ E .checkFailed) :
    Ensures (connectMaster around address) s (fun ok t =>
      Connects around s t ∧
        (ok = true ↔ contains s.node.trackerGroup address = true ∧
          ((s.node.masterSockets.find? address).isSome ∨
            (around.connect s.attempts address).isSome)) ∧
        (ok = true → (t.node.masterSockets.find? address).isSome) ∧
        (ok = false → contains s.node.trackerGroup address = true →
          t.attempts = s.attempts + 1) ∧
        (ok = false → t.node = s.node)) E := by
  simp only [connectMaster, ensures_bind, ensures_get, ensures_ite, ensures_pure]
  refine ⟨?_, ?_⟩
  · intro hgroup
    exact ⟨Connects.refl s, by simp [hgroup], by simp, by simp [hgroup], by simp⟩
  · intro hgroup
    refine ⟨?_, ?_⟩
    · intro hsocket
      exact ⟨Connects.refl s, by simp [hgroup, hsocket], fun _ => hsocket, by simp, by simp⟩
    · intro hsocket
      have hnone : s.node.masterSockets.find? address = none := by simpa using hsocket
      refine ensures_check (by simpa using hcheck) fun _ => ?_
      rw [ensures_modify]
      cases hconnect : around.connect s.attempts address with
      | none =>
          exact ⟨connects_attempt s, by simp [hsocket], by simp, fun _ _ => rfl, fun _ => rfl⟩
      | some fd =>
          simp only [ensures_bind, modifyNode, ensures_modify]
          refine ensures_addSocketResource fun buffers => ?_
          have hregister := connects_register (s := { s with attempts := s.attempts + 1 }) hnone
            hconnect buffers
          refine ⟨(connects_attempt s).trans hregister, by simp [hgroup], ?_, by simp, by simp⟩
          intro _
          rw [OrderedMap.find?_set, if_pos rfl]
          rfl

theorem ensures_nextMasterAddress {s : Handling} {address : Str} (hcheck : E .checkFailed) :
    Ensures (nextMasterAddress address) s (fun _ t => t = s) E := by
  simp only [nextMasterAddress, ensures_bind, ensures_get]
  exact ensures_check (Or.inr hcheck) fun _ => rfl

theorem ensures_findNextMasterLoop {s : Handling} {fuel : Nat} {address : Str}
    (hcheck : E .checkFailed) (hfuel : E .outOfFuel) :
    Ensures (findNextMasterLoop around fuel address) s (fun _ t => Connects around s t) E := by
  induction fuel generalizing s address with
  | zero => exact hfuel
  | succ fuel ih =>
      simp only [findNextMasterLoop, ensures_bind, ensures_get, ensures_ite, ensures_pure]
      refine ⟨fun _ => Connects.refl s, fun _ => ?_⟩
      refine (ensures_connectMaster (Or.inr hcheck)).imp fun ok t hconnect => ?_
      obtain ⟨hst, _, hsocket, _⟩ := hconnect
      refine ⟨?_, ?_⟩
      · intro hok
        obtain ⟨fd, hfd⟩ := Option.isSome_iff_exists.mp (hsocket hok)
        exact ensures_masterSocketFd hfd hst
      · intro _
        refine (ensures_nextMasterAddress hcheck).imp fun next u hu => ?_
        subst hu
        exact ih.imp fun _ v hv => hst.trans hv

theorem ensures_findNextMaster {s : Handling} (hcheck : E .checkFailed) (hfuel : E .outOfFuel) :
    Ensures (findNextMaster around) s (fun _ t => Connects around s t) E := by
  simp only [findNextMaster, ensures_bind, ensures_get]
  refine (ensures_nextMasterAddress hcheck).imp fun next t ht => ?_
  subst ht
  exact ensures_findNextMasterLoop hcheck hfuel

theorem ensures_sendProtocol {s : Handling} {proto : TrackerProtocol} {fd : Int}
    {Q : Bool → Handling → Prop} (hQ : ∀ ok effects, Q ok { s with effects := effects }) :
    Ensures (sendProtocol proto fd) s Q E := by
  simp only [sendProtocol, ensures_bind, ensures_get, ensures_ite, emit, ensures_modify,
    ensures_pure]
  exact ⟨fun _ => hQ true _, fun _ => hQ false s.effects⟩

theorem contains_stamped {node : Node} (hmaster : node.isMaster = true) (proto : TrackerProtocol) :
    contains (stamped node proto).responseSockAddr node.trackerServer = true := by
  simp only [contains, stamped, hmaster, if_true, decide_eq_true_eq]
  split_ifs
  · exact List.infix_refl _
  · exact ⟨proto.responseSockAddr ++ [';'], [], by simp⟩

theorem contains_stamped_of_contains {node : Node} {proto : TrackerProtocol} {address : Str}
    (h : contains proto.responseSockAddr address = true) :
    contains (stamped node proto).responseSockAddr address = true := by
  have hold : address <:+: proto.responseSockAddr := of_decide_eq_true h
  simp only [stamped]
  split_ifs with hmaster hempty
  · rw [List.isEmpty_iff.mp hempty] at hold
    exact decide_eq_true (hold.trans ⟨[], node.trackerServer, rfl⟩)
  · exact decide_eq_true (hold.trans ⟨[], ';' :: node.trackerServer, rfl⟩)
  · exact h

end FastDCS.Connections
