import FastDCS.Sockets
import FastDCS.Runs

/-!
The receive path: every receive event stands for a message in the receive queue
of its descriptor, and nobody waits for such a queue with `mutex_socket_` held.
-/

namespace FastDCS.ReceivePath

open FastDCS.Strings
open FastDCS.Sockets
open FastDCS.Runs

/-- The receive events of a descriptor that are not handled. -/
def pendingReceive (s : State) (socketFd : Int) : Nat :=
  s.socketReceiveEvents.count socketFd +
    match s.iteration with
    | some (queueReceive, _) => queueReceive.count socketFd
    | none => 0

/-- The messages in the receive queue of a descriptor. -/
def stored (s : State) (socketFd : Int) : Nat :=
  (s.receiveBuffers socketFd).measure fun buffer => buffer.queue.contents.length

structure Matched (s : State) : Prop where
  events : ∀ socketFd, pendingReceive s socketFd = stored s socketFd
  moving : s.wedged = false

/-- What is read fits its receive queue, and a connection is removed when all its
messages have been handled. -/
def KeepsMatched (s : State) : Action → Prop
  | .addReceiveSocketBuffer socketFd data =>
      (s.receiveBuffers socketFd).Forall fun buffer => Accepts buffer.queue data
  | .removeSocketResource socketFd =>
      (s.receiveBuffers socketFd).Forall fun buffer => buffer.queue.contents = []
  | _ => True

instance (s : State) : ∀ a, Decidable (KeepsMatched s a)
  | .addReceiveSocketBuffer _ _ => inferInstanceAs (Decidable (Entry.Forall _ _))
  | .removeSocketResource _ => inferInstanceAs (Decidable (Entry.Forall _ _))
  | .addSocketResource _ _ | .sendProtocol _ _ _ | .pushSendEvent _ | .getSocketEvent
  | .handleReceive | .handleSend _ | .endIteration => isTrue trivial

/-- Messages can be added to the receive queues. -/
def Open (s : State) : Prop :=
  ∀ socketFd, (s.receiveBuffers socketFd).Forall fun buffer => buffer.queue.WellFormed

variable {socketBuffSize : Nat} {s s' : State} {socketFd : Int}

theorem matched_congr (hreceive : s'.receiveBuffers = s.receiveBuffers)
    (hpending : ∀ socketFd, pendingReceive s' socketFd = pendingReceive s socketFd)
    (hwedged : s'.wedged = s.wedged) : Matched s' ↔ Matched s := by
  have hstored : ∀ socketFd, stored s' socketFd = stored s socketFd := fun socketFd => by
    rw [stored, stored, hreceive]
  constructor
  · intro h
    exact ⟨fun socketFd => by rw [← hpending, h.events, hstored], hwedged ▸ h.moving⟩
  · intro h
    exact ⟨fun socketFd => by rw [hpending, h.events, hstored], hwedged.trans h.moving⟩

theorem measure_update {β : Type} (m : Int → Entry β) (f : β → Nat) (e : Entry β)
    (socketFd other : Int) :
    (Function.update m socketFd e other).measure f =
      if other = socketFd then e.measure f else (m other).measure f := by
  rw [Function.update_apply]
  split_ifs
  · rfl
  · rfl

theorem open_update (hopen : Open s) {queue : SignalingQueue} (hqueue : queue.WellFormed)
    (socketFd : Int) (connection : Nat) :
    Open { s with
      receiveBuffers := Function.update s.receiveBuffers socketFd
        (.live { queue := queue, connection := connection }) } := by
  intro other
  dsimp only
  rw [Function.update_apply]
  split_ifs
  · exact hqueue
  · exact hopen other

theorem open_erase (hopen : Open s) (socketFd : Int) :
    Open (s.removeSocketResource socketFd) := by
  intro other
  dsimp only [State.removeSocketResource]
  rw [Function.update_apply]
  split_ifs
  · trivial
  · exact hopen other

theorem addReceiveSocketBuffer_spec (hs : Matched s) (hopen : Open s) {data : Str}
    (h : s.addReceiveSocketBuffer socketFd data = some s') :
    (Matched s' ↔ (s.receiveBuffers socketFd).Forall fun buffer => Accepts buffer.queue data) ∧
      Open s' := by
  rw [State.addReceiveSocketBuffer] at h
  have hfd := hopen socketFd
  have hevents := hs.events socketFd
  cases hentry : s.receiveBuffers socketFd with
  | absent =>
      rw [hentry] at h
      obtain rfl := Option.some.inj h
      exact ⟨iff_of_true hs trivial, hopen⟩
  | null =>
      rw [hentry] at h
      cases h
  | live buffer =>
      rw [hentry] at h hfd
      rw [stored, hentry] at hevents
      dsimp only at h
      by_cases haccepts : Accepts buffer.queue data
      · obtain ⟨message, hadd, hfits⟩ := addBlocking_of_accepts haccepts
        have hcontents := SignalingQueue.contents_store hfd.consistent hfits
        have hstored := wellFormed_addBlocking hfd hadd
        rw [hadd] at h
        obtain rfl := Option.some.inj h
        refine ⟨iff_of_true ⟨fun other => ?_, hs.moving⟩ haccepts,
          open_update hopen hstored socketFd buffer.connection⟩
        have hother := hs.events other
        simp only [stored, pendingReceive] at hother hevents ⊢
        rw [measure_update, List.count_append, List.count_singleton]
        simp only [beq_iff_eq]
        by_cases heq : other = socketFd
        · subst heq
          rw [if_pos rfl, if_pos rfl, Entry.measure, hcontents, List.length_append,
            List.length_singleton]
          rw [Entry.measure] at hevents
          omega
        · rw [if_neg heq, if_neg (Ne.symm heq)]
          exact hother
      · rcases addBlocking_of_not_accepts haccepts with hwaits | hrejected
        · rw [hwaits] at h
          obtain rfl := Option.some.inj h
          exact ⟨iff_of_false (fun hs' => by cases hs'.moving) haccepts, hopen⟩
        · rw [hrejected] at h
          obtain rfl := Option.some.inj h
          refine ⟨iff_of_false (fun hs' => ?_) haccepts,
            open_update hopen hfd socketFd buffer.connection⟩
          have hnew := hs'.events socketFd
          simp only [stored, pendingReceive] at hnew hevents
          rw [measure_update, if_pos rfl, List.count_append, List.count_singleton_self] at hnew
          simp only [Entry.measure] at hnew hevents
          omega

theorem removeSocketResource_spec (hs : Matched s) (hopen : Open s) :
    (Matched (s.removeSocketResource socketFd) ↔
        (s.receiveBuffers socketFd).Forall fun buffer => buffer.queue.contents = []) ∧
      Open (s.removeSocketResource socketFd) := by
  refine ⟨?_, open_erase hopen socketFd⟩
  have hstored : ∀ other, stored (s.removeSocketResource socketFd) other =
      if other = socketFd then 0 else stored s other :=
    fun other => measure_update s.receiveBuffers _ .absent socketFd other
  have hempty : (s.receiveBuffers socketFd).Forall (fun buffer => buffer.queue.contents = []) ↔
      stored s socketFd = 0 := by
    rw [stored]
    cases s.receiveBuffers socketFd with
    | absent => exact iff_of_true trivial rfl
    | null => exact iff_of_true trivial rfl
    | live buffer => exact List.length_eq_zero_iff.symm
  rw [hempty]
  constructor
  · intro hs'
    have hnew := hs'.events socketFd
    rw [hstored, if_pos rfl] at hnew
    exact (hs.events socketFd).symm.trans hnew
  · intro hnone
    refine ⟨fun other => ?_, hs.moving⟩
    change pendingReceive s other = _
    rw [hstored, hs.events]
    split_ifs with heq
    · rw [heq, hnone]
    · rfl

theorem addSocketResource_spec (hsize : 0 < socketBuffSize) (hs : Matched s) (hopen : Open s) :
    Matched (s.addSocketResource socketBuffSize socketFd) ∧
      Open (s.addSocketResource socketBuffSize socketFd) := by
  have hnew := SignalingQueue.wellFormed_new hsize
  cases hentry : s.receiveBuffers socketFd with
  | absent =>
      have hbuffers : (s.addSocketResource socketBuffSize socketFd).receiveBuffers =
          Function.update s.receiveBuffers socketFd
            (.live { queue := .new socketBuffSize, connection := s.connections }) := by
        simp only [State.addSocketResource, hentry, Entry.isAbsent, if_true]
      refine ⟨⟨fun other => ?_, hs.moving⟩, ?_⟩
      · change pendingReceive s other = _
        rw [hs.events, stored, stored, hbuffers, measure_update]
        split_ifs with heq
        · rw [heq, hentry]
          rfl
        · rfl
      · rw [Open, hbuffers]
        exact open_update hopen hnew socketFd s.connections
  | null =>
      have hbuffers : (s.addSocketResource socketBuffSize socketFd).receiveBuffers =
          s.receiveBuffers := by
        simp only [State.addSocketResource, hentry, Entry.isAbsent, Bool.false_eq_true, if_false]
      exact ⟨(matched_congr hbuffers (fun _ => rfl) rfl).mpr hs, by rwa [Open, hbuffers]⟩
  | live buffer =>
      have hbuffers : (s.addSocketResource socketBuffSize socketFd).receiveBuffers =
          s.receiveBuffers := by
        simp only [State.addSocketResource, hentry, Entry.isAbsent, Bool.false_eq_true, if_false]
      exact ⟨(matched_congr hbuffers (fun _ => rfl) rfl).mpr hs, by rwa [Open, hbuffers]⟩

/-- Where the events match the messages, the queue of an event is not empty. -/
theorem handleReceive_spec (hs : Matched s) (hopen : Open s) {queueReceive queueSend : List Int}
    (hiteration : s.iteration = some (socketFd :: queueReceive, queueSend)) :
    Matched ({ s with iteration := some (queueReceive, queueSend) }.handleReceive socketFd) ∧
      Open ({ s with iteration := some (queueReceive, queueSend) }.handleReceive socketFd) := by
  have hevents := hs.events
  simp only [pendingReceive, hiteration, List.count_cons] at hevents
  have hhere := hevents socketFd
  rw [if_pos (beq_self_eq_true socketFd)] at hhere
  cases hentry : s.receiveBuffers socketFd with
  | absent =>
      have hnone : stored s socketFd = 0 := by rw [stored, hentry]; rfl
      omega
  | null =>
      have hnone : stored s socketFd = 0 := by rw [stored, hentry]; rfl
      omega
  | live buffer =>
      have hfd := hopen socketFd
      rw [hentry] at hfd
      rw [stored, hentry] at hhere
      simp only [Entry.measure] at hhere
      rcases hcontents : buffer.queue.contents with _ | ⟨message, rest⟩
      · rw [hcontents, List.length_nil] at hhere
        omega
      · obtain ⟨queue, hremove, hqueue, hrest, _⟩ := SignalingQueue.removeFront_spec hfd hcontents
        have hremoved : buffer.queue.remove = some (message, queue) := by
          rw [SignalingQueue.remove, hremove]
        simp only [State.handleReceive, hentry, hremoved]
        refine ⟨⟨fun other => ?_, hs.moving⟩, open_update hopen hqueue socketFd buffer.connection⟩
        have hother := hevents other
        simp only [pendingReceive, stored, measure_update] at hother ⊢
        by_cases heq : other = socketFd
        · subst heq
          rw [if_pos (beq_self_eq_true other), hentry] at hother
          rw [if_pos rfl]
          simp only [Entry.measure, hcontents, hrest, List.length_cons] at hother ⊢
          omega
        · rw [if_neg (by simpa using Ne.symm heq)] at hother
          rw [if_neg heq]
          exact hother

theorem sendProtocol_spec {message : Str} {inSocketThread : Bool}
    (h : s.sendProtocol socketFd message inSocketThread = some s') :
    s'.receiveBuffers = s.receiveBuffers ∧
      (∀ other, pendingReceive s' other = pendingReceive s other) ∧ s'.wedged = s.wedged := by
  rw [State.sendProtocol] at h
  split at h
  · obtain rfl := Option.some.inj h
    exact ⟨rfl, fun _ => rfl, rfl⟩
  · cases h
  · obtain ⟨queue, _, rfl⟩ := Option.map_eq_some_iff.mp h
    exact ⟨rfl, fun _ => rfl, rfl⟩

theorem handleSend_spec {accepted : Nat} (h : s.handleSend socketFd accepted = some s') :
    s'.receiveBuffers = s.receiveBuffers ∧
      (∀ other, pendingReceive s' other = pendingReceive s other) ∧ s'.wedged = s.wedged := by
  rw [State.handleSend] at h
  split at h
  · split at h
    · obtain rfl := Option.some.inj h
      exact ⟨rfl, fun _ => rfl, rfl⟩
    · cases h
  · obtain rfl := Option.some.inj h
    exact ⟨rfl, fun _ => rfl, rfl⟩

/-- A step keeps the match exactly where it meets the condition. -/
theorem act_spec (hsize : 0 < socketBuffSize) (hs : Matched s) (hopen : Open s) {a : Action}
    (h : act socketBuffSize s a = some s') : (Matched s' ↔ KeepsMatched s a) ∧ Open s' := by
  have hsame : ∀ {t : State}, t.receiveBuffers = s.receiveBuffers →
      (∀ other, pendingReceive t other = pendingReceive s other) → t.wedged = s.wedged →
        (Matched t ↔ True) ∧ Open t := by
    intro t hreceive hpending hwedged
    exact ⟨iff_of_true ((matched_congr hreceive hpending hwedged).mpr hs) trivial,
      by rwa [Open, hreceive]⟩
  cases act_cases h with
  | addReceiveSocketBuffer _ hadds => exact addReceiveSocketBuffer_spec hs hopen hadds
  | @addSocketResource socketFd =>
      have hspec : Matched (s.addSocketResource socketBuffSize socketFd) ∧
          Open (s.addSocketResource socketBuffSize socketFd) :=
        addSocketResource_spec hsize hs hopen
      exact ⟨iff_of_true hspec.1 trivial, hspec.2⟩
  | removeSocketResource => exact removeSocketResource_spec hs hopen
  | sendProtocol _ hsends =>
      obtain ⟨hreceive, hpending, hwedged⟩ := sendProtocol_spec hsends
      exact hsame hreceive hpending hwedged
  | pushSendEvent => exact hsame rfl (fun _ => rfl) rfl
  | getSocketEvent hfree =>
      refine hsame rfl (fun other => ?_) rfl
      simp only [pendingReceive, hfree, List.count_nil]
      omega
  | handleReceive hiteration =>
      obtain ⟨hmatched, hopen'⟩ := handleReceive_spec hs hopen hiteration
      exact ⟨iff_of_true hmatched trivial, hopen'⟩
  | handleSend hiteration _ hsends =>
      obtain ⟨hreceive, hpending, hwedged⟩ := handleSend_spec hsends
      refine hsame hreceive (fun other => (hpending other).trans ?_) hwedged
      simp only [pendingReceive, hiteration]
  | endIteration hiteration =>
      refine hsame rfl (fun other => ?_) rfl
      simp only [pendingReceive, hiteration, List.count_nil]

theorem keepsMatched_opened (s : State) (a : Action) :
    KeepsMatched { s with opened := none } a ↔ KeepsMatched s a := by
  cases a <;> exact Iff.rfl

theorem step_spec (hsize : 0 < socketBuffSize) (hs : Matched s) (hopen : Open s) {a : Action}
    (h : step socketBuffSize s a = some s') : (Matched s' ↔ KeepsMatched s a) ∧ Open s' := by
  have hs₀ : Matched { s with opened := none } := ⟨hs.events, hs.moving⟩
  have hopen₀ : Open { s with opened := none } := hopen
  obtain ⟨hiff, hopen'⟩ := act_spec hsize hs₀ hopen₀ h
  exact ⟨hiff.trans (keepsMatched_opened s a), hopen'⟩

theorem matched_initial : Matched {} := ⟨fun _ => rfl, rfl⟩

/-- The events match the messages and nobody waits in every state of a run,
exactly when all that is read fits and connections are removed with nothing of
theirs left. -/
theorem matched_throughout_iff (hsize : 0 < socketBuffSize) {as : List Action}
    (hrun : run (step socketBuffSize) {} as = some s) :
    Throughout (step socketBuffSize) Matched {} as ↔
      Along (step socketBuffSize) KeepsMatched {} as :=
  throughout_iff_along (fun _ _ _ hs hopen h => step_spec hsize hs hopen h) matched_initial
    (fun _ => trivial) hrun

/-- Two connections, one closed when its messages are handled and its descriptor
used again. -/
def orderlyRun : List Action :=
  [.addSocketResource 5 false, .addSocketResource 6 false,
    .addReceiveSocketBuffer 5 "ab".toList, .addReceiveSocketBuffer 6 "c".toList,
    .addReceiveSocketBuffer 5 "d".toList, .getSocketEvent, .handleReceive, .handleReceive,
    .handleReceive, .endIteration, .removeSocketResource 5, .addSocketResource 5 false,
    .addReceiveSocketBuffer 5 "efg".toList]

theorem orderlyRun_matched : Throughout (step 3) Matched {} orderlyRun := by
  have hruns : (run (step 3) {} orderlyRun).isSome = true := by decide +kernel
  obtain ⟨s, hrun⟩ := Option.isSome_iff_exists.mp hruns
  exact (matched_throughout_iff (by decide) hrun).mpr (by decide +kernel)

/-- The descriptor is used again before the event of the old connection is
handled, and the socket thread waits at the new, empty queue. -/
def staleEventRun : List Action :=
  [.addSocketResource 5 false, .addReceiveSocketBuffer 5 "ab".toList, .removeSocketResource 5,
    .addSocketResource 5 false, .getSocketEvent, .handleReceive]

theorem not_every_run_matched :
    ¬∀ (socketBuffSize : Nat) (as : List Action) (s : State), 0 < socketBuffSize →
      run (step socketBuffSize) {} as = some s → Matched s := by
  intro hall
  have hwedged : (run (step 3) {} staleEventRun).map State.wedged = some true := by
    decide +kernel
  obtain ⟨s, hrun, hs⟩ := Option.map_eq_some_iff.mp hwedged
  rw [(hall 3 staleEventRun s (by decide) hrun).moving] at hs
  cases hs

end FastDCS.ReceivePath
