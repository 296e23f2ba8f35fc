import FastDCS.Sockets
import FastDCS.Runs

/-!
What `AddSocketResource` leaves for a new connection whose descriptor was used
before.
-/

namespace FastDCS.DescriptorReuse

open FastDCS.Strings
open FastDCS.Sockets
open FastDCS.Runs

/-- The entry is an empty queue that was created for the connection. -/
def IsNewFor (connection : Nat) : Entry Buffer → Prop
  | .live buffer => buffer.queue.contents = [] ∧ buffer.connection = connection
  | _ => False

/-- No entry is null, and a connection for which `AddSocketResource` has just
returned has empty queues of its own. -/
structure Safe (s : State) : Prop where
  receive_ne_null : ∀ socketFd, s.receiveBuffers socketFd ≠ .null
  send_ne_null : ∀ socketFd, s.sendBuffers socketFd ≠ .null
  opened : ∀ socketFd connection, s.opened = some (socketFd, connection) →
    IsNewFor connection (s.sendBuffers socketFd) ∧ IsNewFor connection (s.receiveBuffers socketFd)

/-- The descriptor of the next receive event that the socket thread handles. -/
def nextReceive (s : State) : Option Int :=
  s.iteration.bind fun events => events.1.head?

/-- A descriptor gets resources when those of its last connection are removed,
and the receive events that are handled are of descriptors with an entry. -/
def KeepsSafe (s : State) : Action → Prop
  | .addSocketResource socketFd _ =>
      (s.receiveBuffers socketFd).isAbsent = true ∧ (s.sendBuffers socketFd).isAbsent = true
  | .handleReceive =>
      (nextReceive s).all (fun socketFd => !(s.receiveBuffers socketFd).isAbsent) = true
  | _ => True

instance (s : State) : ∀ a, Decidable (KeepsSafe s a)
  | .addSocketResource _ _ => inferInstanceAs (Decidable (_ ∧ _))
  | .handleReceive => inferInstanceAs (Decidable (_ = _))
  | .addReceiveSocketBuffer _ _ | .removeSocketResource _ | .sendProtocol _ _ _
  | .pushSendEvent _ | .getSocketEvent | .handleSend _ | .endIteration => isTrue trivial

/-- The queues were created for connections that were opened before. -/
def Numbered (s : State) : Prop :=
  ∀ socketFd,
    (s.receiveBuffers socketFd).Forall (fun buffer => buffer.connection < s.connections) ∧
      (s.sendBuffers socketFd).Forall fun buffer => buffer.connection < s.connections

variable {socketBuffSize : Nat} {s s' : State} {socketFd : Int}

/-- What a step that opens no connection does to an entry: it keeps it, removes
it, or changes its queue. -/
inductive Follows : Entry Buffer → Entry Buffer → Prop
  | same (e : Entry Buffer) : Follows e e
  | removed (e : Entry Buffer) : Follows e .absent
  | changed (queue queue' : SignalingQueue) (connection : Nat) :
      Follows (.live ⟨queue, connection⟩) (.live ⟨queue', connection⟩)

theorem Follows.ne_null {e e' : Entry Buffer} (h : Follows e e') (he : e ≠ .null) :
    e' ≠ .null := by
  cases h with
  | same => exact he
  | removed => exact fun h => by cases h
  | changed queue queue' connection => exact fun h => by cases h

theorem Follows.numbered {e e' : Entry Buffer} (h : Follows e e') {n : Nat}
    (he : e.Forall fun buffer => buffer.connection < n) :
    e'.Forall fun buffer => buffer.connection < n := by
  cases h with
  | same => exact he
  | removed => trivial
  | changed queue queue' connection => exact he

theorem follows_update {m : Int → Entry Buffer} {buffer : Buffer} (h : m socketFd = .live buffer)
    (queue : SignalingQueue) (other : Int) :
    Follows (m other)
      (Function.update m socketFd (.live { buffer with queue := queue }) other) := by
  rw [Function.update_apply]
  split_ifs with heq
  · rw [heq, h]
    exact .changed buffer.queue queue buffer.connection
  · exact .same _

theorem follows_erase (m : Int → Entry Buffer) (socketFd other : Int) :
    Follows (m other) (Function.update m socketFd .absent other) := by
  rw [Function.update_apply]
  split_ifs
  · exact .removed _
  · exact .same _

structure Keeps (s s' : State) : Prop where
  connections : s'.connections = s.connections
  opened : s'.opened = s.opened
  receive : ∀ socketFd, Follows (s.receiveBuffers socketFd) (s'.receiveBuffers socketFd)
  send : ∀ socketFd, Follows (s.sendBuffers socketFd) (s'.sendBuffers socketFd)

theorem Keeps.safe (h : Keeps s s') (hs : Safe s) (hopened : s.opened = none) : Safe s' where
  receive_ne_null socketFd := (h.receive socketFd).ne_null (hs.receive_ne_null socketFd)
  send_ne_null socketFd := (h.send socketFd).ne_null (hs.send_ne_null socketFd)
  opened socketFd connection hnew := by
    rw [h.opened, hopened] at hnew
    cases hnew

theorem Keeps.numbered (h : Keeps s s') (hs : Numbered s) : Numbered s' := by
  intro socketFd
  rw [h.connections]
  exact ⟨(h.receive socketFd).numbered (hs socketFd).1, (h.send socketFd).numbered (hs socketFd).2⟩

theorem keeps_addReceiveSocketBuffer {data : Str}
    (h : s.addReceiveSocketBuffer socketFd data = some s') : Keeps s s' := by
  rw [State.addReceiveSocketBuffer] at h
  split at h
  · obtain rfl := Option.some.inj h
    exact ⟨rfl, rfl, fun _ => .same _, fun _ => .same _⟩
  · cases h
  · next buffer hentry =>
      split at h
      · obtain rfl := Option.some.inj h
        exact ⟨rfl, rfl, fun _ => .same _, fun _ => .same _⟩
      · next queue _ =>
          obtain rfl := Option.some.inj h
          exact ⟨rfl, rfl, follows_update hentry queue, fun _ => .same _⟩

theorem keeps_sendProtocol {message : Str} {inSocketThread : Bool}
    (h : s.sendProtocol socketFd message inSocketThread = some s') : Keeps s s' := by
  rw [State.sendProtocol] at h
  split at h
  · obtain rfl := Option.some.inj h
    exact ⟨rfl, rfl, fun _ => .same _, fun _ => .same _⟩
  · cases h
  · next buffer hentry =>
      obtain ⟨queue, _, rfl⟩ := Option.map_eq_some_iff.mp h
      exact ⟨rfl, rfl, fun _ => .same _, follows_update hentry queue⟩

theorem keeps_handleSend {accepted : Nat} (h : s.handleSend socketFd accepted = some s') :
    Keeps s s' := by
  rw [State.handleSend] at h
  split at h
  · split at h
    · next buffer hentry =>
        obtain rfl := Option.some.inj h
        exact ⟨rfl, rfl, fun _ => .same _, follows_update hentry _⟩
    · cases h
  · obtain rfl := Option.some.inj h
    exact ⟨rfl, rfl, fun _ => .same _, fun _ => .same _⟩

/-- The lookup makes a null entry exactly where there is no entry. -/
theorem handleReceive_spec (hs : Safe s) (hopened : s.opened = none) (hn : Numbered s)
    (socketFd : Int) :
    (Safe (s.handleReceive socketFd) ↔ (s.receiveBuffers socketFd).isAbsent = false) ∧
      Numbered (s.handleReceive socketFd) := by
  cases hentry : s.receiveBuffers socketFd with
  | absent =>
      have hafter : s.handleReceive socketFd =
          { s with receiveBuffers := Function.update s.receiveBuffers socketFd .null } := by
        rw [State.handleReceive, hentry]
      rw [hafter]
      refine ⟨iff_of_false (fun hs' => ?_) (by rw [Entry.isAbsent]; decide), fun other => ?_⟩
      · exact hs'.receive_ne_null socketFd (Function.update_self socketFd _ _)
      · refine ⟨?_, (hn other).2⟩
        dsimp only
        rw [Function.update_apply]
        split_ifs
        · trivial
        · exact (hn other).1
  | null => exact absurd hentry (hs.receive_ne_null socketFd)
  | live buffer =>
      have hkeeps : Keeps s (s.handleReceive socketFd) := by
        rw [State.handleReceive, hentry]
        dsimp only
        split
        · exact ⟨rfl, rfl, fun _ => .same _, fun _ => .same _⟩
        · exact ⟨rfl, rfl, follows_update hentry _, fun _ => .same _⟩
      exact ⟨iff_of_true (hkeeps.safe hs hopened) rfl, hkeeps.numbered hn⟩

/-- A map after the creation of a queue for the descriptor, unless it has an
entry. -/
def created (m : Int → Entry Buffer) (socketFd : Int) (buffer : Buffer) : Int → Entry Buffer :=
  if (m socketFd).isAbsent then Function.update m socketFd (.live buffer) else m

theorem created_ne_null {m : Int → Entry Buffer} (hm : ∀ other, m other ≠ .null) (buffer : Buffer)
    (other : Int) : created m socketFd buffer other ≠ .null := by
  rw [created]
  split_ifs
  · rw [Function.update_apply]
    split_ifs
    · exact fun h => by cases h
    · exact hm other
  · exact hm other

theorem created_numbered {m : Int → Entry Buffer} {n : Nat}
    (hm : ∀ other, (m other).Forall fun buffer => buffer.connection < n) (queue : SignalingQueue)
    (other : Int) :
    (created m socketFd ⟨queue, n⟩ other).Forall fun buffer => buffer.connection < n + 1 := by
  have hmore : ∀ e : Entry Buffer, (e.Forall fun buffer => buffer.connection < n) →
      e.Forall fun buffer => buffer.connection < n + 1 := by
    intro e he
    cases e with
    | absent => trivial
    | null => trivial
    | live buffer => exact Nat.lt_succ_of_lt he
  rw [created]
  split_ifs
  · rw [Function.update_apply]
    split_ifs
    · exact Nat.lt_succ_self n
    · exact hmore _ (hm other)
  · exact hmore _ (hm other)

/-- A queue that was there before belongs to another connection. -/
theorem isNewFor_created_iff {m : Int → Entry Buffer} {n : Nat}
    (hm : (m socketFd).Forall fun buffer => buffer.connection < n) {queue : SignalingQueue}
    (hqueue : queue.contents = []) :
    IsNewFor n (created m socketFd ⟨queue, n⟩ socketFd) ↔ (m socketFd).isAbsent = true := by
  rw [created]
  cases hentry : m socketFd with
  | absent =>
      rw [Entry.isAbsent, if_pos rfl, Function.update_self]
      exact iff_of_true ⟨hqueue, rfl⟩ rfl
  | null =>
      rw [Entry.isAbsent, if_neg Bool.false_ne_true, hentry]
      · exact iff_of_false id Bool.false_ne_true
      · exact fun h => by cases h
  | live buffer =>
      rw [hentry] at hm
      rw [Entry.isAbsent, if_neg Bool.false_ne_true, hentry]
      · exact iff_of_false (fun hnew => Nat.lt_irrefl n (hnew.2 ▸ hm)) Bool.false_ne_true
      · exact fun h => by cases h

theorem addSocketResource_spec (hs : Safe s) (hn : Numbered s) :
    (Safe (s.addSocketResource socketBuffSize socketFd) ↔
        (s.receiveBuffers socketFd).isAbsent = true ∧ (s.sendBuffers socketFd).isAbsent = true) ∧
      Numbered (s.addSocketResource socketBuffSize socketFd) := by
  have hempty : (SignalingQueue.new socketBuffSize).contents = [] := rfl
  have hreceive := isNewFor_created_iff (hn socketFd).1 hempty
  have hsend := isNewFor_created_iff (hn socketFd).2 hempty
  refine ⟨?_, fun other => ⟨created_numbered (fun k => (hn k).1) _ other,
    created_numbered (fun k => (hn k).2) _ other⟩⟩
  constructor
  · intro hs'
    obtain ⟨hnewSend, hnewReceive⟩ := hs'.opened socketFd s.connections rfl
    exact ⟨hreceive.mp hnewReceive, hsend.mp hnewSend⟩
  · rintro ⟨habsentReceive, habsentSend⟩
    refine ⟨created_ne_null hs.receive_ne_null _, created_ne_null hs.send_ne_null _, ?_⟩
    intro other connection hopened
    obtain ⟨rfl, rfl⟩ := Prod.mk.inj (Option.some.inj hopened)
    exact ⟨hsend.mpr habsentSend, hreceive.mpr habsentReceive⟩

/-- A step is safe exactly where it meets the condition. -/
theorem act_spec (hs : Safe s) (hopened : s.opened = none) (hn : Numbered s) {a : Action}
    (h : act socketBuffSize s a = some s') : (Safe s' ↔ KeepsSafe s a) ∧ Numbered s' := by
  have hkeeps : Keeps s s' → (Safe s' ↔ True) ∧ Numbered s' := fun h =>
    ⟨iff_of_true (h.safe hs hopened) trivial, h.numbered hn⟩
  cases act_cases h with
  | addReceiveSocketBuffer _ hadds => exact hkeeps (keeps_addReceiveSocketBuffer hadds)
  | addSocketResource => exact addSocketResource_spec hs hn
  | @removeSocketResource socketFd =>
      exact hkeeps ⟨rfl, rfl, follows_erase _ socketFd, follows_erase _ socketFd⟩
  | sendProtocol _ hsends => exact hkeeps (keeps_sendProtocol hsends)
  | pushSendEvent => exact hkeeps ⟨rfl, rfl, fun _ => .same _, fun _ => .same _⟩
  | getSocketEvent => exact hkeeps ⟨rfl, rfl, fun _ => .same _, fun _ => .same _⟩
  | @handleReceive socketFd queueReceive queueSend hiteration =>
      have hs₀ : Safe { s with iteration := some (queueReceive, queueSend) } :=
        ⟨hs.receive_ne_null, hs.send_ne_null, hs.opened⟩
      have hspec := handleReceive_spec hs₀ hopened hn socketFd
      refine ⟨hspec.1.trans ?_, hspec.2⟩
      simp [KeepsSafe, nextReceive, hiteration]
  | handleSend _ _ hsends =>
      obtain ⟨hconnections, hopened', hreceive, hsend⟩ := keeps_handleSend hsends
      exact hkeeps ⟨hconnections, hopened', hreceive, hsend⟩
  | endIteration => exact hkeeps ⟨rfl, rfl, fun _ => .same _, fun _ => .same _⟩

theorem keepsSafe_opened (s : State) (a : Action) :
    KeepsSafe { s with opened := none } a ↔ KeepsSafe s a := by
  cases a <;> exact Iff.rfl

theorem step_spec (hs : Safe s) (hn : Numbered s) {a : Action}
    (h : step socketBuffSize s a = some s') : (Safe s' ↔ KeepsSafe s a) ∧ Numbered s' := by
  have hs₀ : Safe { s with opened := none } :=
    ⟨hs.receive_ne_null, hs.send_ne_null, fun _ _ hnew => by cases hnew⟩
  obtain ⟨hiff, hn'⟩ := act_spec hs₀ rfl hn h
  exact ⟨hiff.trans (keepsSafe_opened s a), hn'⟩

theorem safe_initial : Safe {} where
  receive_ne_null _ h := by cases h
  send_ne_null _ h := by cases h
  opened _ _ h := by cases h

/-- In every state of a run no entry is null and a new connection has queues of
its own, exactly when no descriptor gets resources before those of its last
connection are removed, and no receive event is handled behind a removal. -/
theorem safe_throughout_iff {as : List Action} (hrun : run (step socketBuffSize) {} as = some s) :
    Throughout (step socketBuffSize) Safe {} as ↔
      Along (step socketBuffSize) KeepsSafe {} as :=
  throughout_iff_along (fun _ _ _ hs hn h => step_spec hs hn h) safe_initial
    (fun _ => ⟨trivial, trivial⟩) hrun

/-- A descriptor that is used again when the events of its last connection have
been handled. -/
def reopeningRun : List Action :=
  [.addSocketResource 5 false, .addReceiveSocketBuffer 5 "ab".toList, .getSocketEvent,
    .handleReceive, .sendProtocol 5 "c".toList true, .pushSendEvent 0, .endIteration,
    .removeSocketResource 5, .getSocketEvent, .handleSend 1, .endIteration,
    .addSocketResource 5 false]

theorem reopeningRun_safe : Throughout (step 3) Safe {} reopeningRun := by
  have hruns : (run (step 3) {} reopeningRun).isSome = true := by decide +kernel
  obtain ⟨s, hrun⟩ := Option.isSome_iff_exists.mp hruns
  exact (safe_throughout_iff hrun).mpr (by decide +kernel)

/-- The event of a closed connection leaves a null entry, which the next
connection with the descriptor finds. -/
def nullEntryRun : List Action :=
  [.addSocketResource 5 false, .addReceiveSocketBuffer 5 "ab".toList, .removeSocketResource 5,
    .getSocketEvent, .handleReceive, .endIteration, .addSocketResource 5 false]

theorem not_every_run_safe :
    ¬∀ (socketBuffSize : Nat) (as : List Action) (s : State), 0 < socketBuffSize →
      run (step socketBuffSize) {} as = some s → Safe s := by
  intro hall
  have hnew : (run (step 3) {} nullEntryRun).map
      (fun s => (s.opened, (s.receiveBuffers 5).measure fun _ => 1)) = some (some (5, 1), 0) := by
    decide +kernel
  obtain ⟨s, hrun, hs⟩ := Option.map_eq_some_iff.mp hnew
  obtain ⟨hopened, hnone⟩ := Prod.mk.inj hs
  have hreceive := ((hall 3 nullEntryRun s (by decide) hrun).opened 5 1 hopened).2
  cases hentry : s.receiveBuffers 5 with
  | absent => rw [hentry] at hreceive; exact hreceive
  | null => rw [hentry] at hreceive; exact hreceive
  | live buffer => rw [hentry] at hnone; cases hnone

end FastDCS.DescriptorReuse
