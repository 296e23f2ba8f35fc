import FastDCS.Sockets
import FastDCS.Runs

/-!
The send path: a send event stands for one call of `Connector.send`, and so for
one message that such a call finishes.
-/

namespace FastDCS.SendPath

open FastDCS.Strings
open FastDCS.Sockets
open FastDCS.MessageStream (Connector)
open FastDCS.Runs

/-- The messages that the connector has begun. -/
def begun (connector : Connector) : Nat := if connector.message = [] then 0 else 1

/-- The messages of a descriptor that are not sent to their end. -/
def unsent (s : State) (socketFd : Int) : Nat :=
  (s.sendBuffers socketFd).measure (fun buffer => buffer.queue.contents.length) +
    (s.sendConnects socketFd).measure begun

/-- The calls of `Connector.send` that are due for a descriptor: its events that
are not handled, and the calls of `SendProtocol` that have still to push one. -/
def due (s : State) (socketFd : Int) : Nat :=
  s.socketSendEvents.count socketFd +
    (match s.iteration with
    | some (_, queueSend) => queueSend.count socketFd
    | none => 0) +
    (s.sending.map Prod.fst).count socketFd

/-- Where nothing is due, nothing is left in the queue or the connector. -/
def NothingStranded (s : State) : Prop :=
  ∀ socketFd, due s socketFd = 0 → unsent s socketFd = 0

/-- The bytes that the connector offers to the socket. -/
def offered (s : State) (socketFd : Int) : Str :=
  match s.sendConnects socketFd, s.sendBuffers socketFd with
  | .live connector, .live buffer => connector.offered buffer.queue
  | _, _ => []

def nextSend (s : State) : Option Int :=
  s.iteration.bind fun events => events.2.head?

/-- The socket accepts all that it is offered, or there are more calls due than
messages left. -/
def SendsWhole (s : State) : Action → Prop
  | .handleSend accepted =>
      (nextSend s).all (fun socketFd => decide ((offered s socketFd).length ≤ accepted) ||
        decide (unsent s socketFd < due s socketFd)) = true
  | _ => True

instance (s : State) : ∀ a, Decidable (SendsWhole s a)
  | .handleSend _ => inferInstanceAs (Decidable (_ = _))
  | .addReceiveSocketBuffer _ _ | .addSocketResource _ _ | .removeSocketResource _
  | .sendProtocol _ _ _ | .pushSendEvent _ | .getSocketEvent | .handleReceive
  | .endIteration => isTrue trivial

/-- There is a call for every message that is left. -/
structure Served (s : State) : Prop where
  due : ∀ socketFd, unsent s socketFd ≤ due s socketFd
  queue : ∀ socketFd, (s.sendBuffers socketFd).Forall fun buffer => buffer.queue.WellFormed
  connector : ∀ socketFd,
    (s.sendConnects socketFd).Forall fun c => c.bytesCount ≤ c.message.length
  linked : ∀ socketFd, (s.sendBuffers socketFd).isAbsent = true ∨
    ∃ c, s.sendConnects socketFd = .live c

variable {socketBuffSize : Nat} {s s' : State} {socketFd : Int}

theorem load_spec {connector : Connector} {queue : SignalingQueue} (hq : queue.WellFormed)
    (hc : connector.bytesCount ≤ connector.message.length) :
    ∃ connector' queue', connector.load queue = (connector', queue') ∧ queue'.WellFormed ∧
      connector'.bytesCount ≤ connector'.message.length ∧
      queue'.contents.length + begun connector' ≤ queue.contents.length + begun connector ∧
      (connector'.message = [] → queue'.contents.length + begun connector' ≤
        queue.contents.length + begun connector - 1) := by
  rw [Connector.load]
  split_ifs with hempty
  · have hnil : connector.message = [] := List.isEmpty_iff.mp hempty
    have hbegun : begun connector = 0 := if_pos hnil
    rcases hcontents : queue.contents with _ | ⟨message, rest⟩
    · rw [SignalingQueue.removeFront_nil hcontents]
      refine ⟨connector, queue, rfl, hq, hc, ?_, fun _ => ?_⟩
      · rw [hcontents]
      · rw [hcontents, hbegun]
        exact Nat.zero_le _
    · obtain ⟨left, hremove, hleft, hrest, _⟩ := SignalingQueue.removeFront_spec hq hcontents
      rw [hremove]
      refine ⟨{ connector with message := message }, left, rfl, hleft, ?_, ?_, fun hloaded => ?_⟩
      · rw [hnil, List.length_nil] at hc
        exact (Nat.le_zero.mp hc).trans_le (Nat.zero_le _)
      · have hone : begun { connector with message := message } ≤ 1 := by
          rw [begun]
          split_ifs <;> omega
        rw [hrest, List.length_cons]
        omega
      · have hzero : begun { connector with message := message } = 0 := if_pos hloaded
        rw [hrest, hzero, List.length_cons]
        omega
  · refine ⟨connector, queue, rfl, hq, hc, le_rfl, fun hnil => ?_⟩
    exact absurd (List.isEmpty_iff.mpr hnil) hempty

/-- A call of `send` takes the rest of the message with it, if the socket accepts
all of it, and leaves no more messages than there were. -/
theorem send_spec {connector : Connector} {queue : SignalingQueue} (hq : queue.WellFormed)
    (hc : connector.bytesCount ≤ connector.message.length) (accepted : Nat) :
    ∃ ret sent connector' queue', connector.send queue accepted =
        (ret, sent, connector', queue') ∧ queue'.WellFormed ∧
      connector'.bytesCount ≤ connector'.message.length ∧
      queue'.contents.length + begun connector' ≤ queue.contents.length + begun connector ∧
      ((connector.offered queue).length ≤ accepted →
        queue'.contents.length + begun connector' ≤
          queue.contents.length + begun connector - 1) := by
  obtain ⟨loaded, left, hload, hleft, hloaded, hle, hnothing⟩ := load_spec hq hc
  have hoffered : connector.offered queue = loaded.message.drop loaded.bytesCount := by
    rw [Connector.offered, hload]
  have hproducing : left.emptyAndNoMoreAdd = false := by
    rw [SignalingQueue.emptyAndNoMoreAdd, Bool.and_eq_false_iff, decide_eq_false_iff_not,
      decide_eq_false_iff_not]
    exact Or.inr (Nat.not_le.mpr hleft.producing)
  rw [Connector.send, hload]
  dsimp only
  rw [hproducing, if_neg Bool.false_ne_true]
  split_ifs with hempty hwhole
  · exact ⟨1, [], loaded, left, rfl, hleft, hloaded, hle,
      fun _ => hnothing (List.isEmpty_iff.mp hempty)⟩
  · have hbegun : begun loaded = 1 := if_neg fun hnil => hempty (List.isEmpty_iff.mpr hnil)
    refine ⟨1, _, {}, left, rfl, hleft, le_rfl, ?_, fun _ => ?_⟩
    · have hnew : begun {} = 0 := rfl
      omega
    · have hnew : begun {} = 0 := rfl
      omega
  · refine ⟨1, _, { loaded with
        bytesCount := loaded.bytesCount + ((connector.offered queue).take accepted).length },
      left, rfl, hleft, ?_, hle, fun hall => ?_⟩
    · dsimp only
      rw [hoffered, List.length_take, List.length_drop]
      omega
    · refine absurd ?_ hwhole
      rw [List.take_of_length_le hall, hoffered, List.length_drop]
      omega

theorem served_congr (hs : Served s) (hbuffers : s'.sendBuffers = s.sendBuffers)
    (hconnects : s'.sendConnects = s.sendConnects)
    (hdue : ∀ socketFd, due s' socketFd = due s socketFd) : Served s' where
  due socketFd := by
    rw [unsent, hbuffers, hconnects, hdue]
    exact hs.due socketFd
  queue := by
    rw [hbuffers]
    exact hs.queue
  connector := by
    rw [hconnects]
    exact hs.connector
  linked := by
    rw [hbuffers, hconnects]
    exact hs.linked

/-- Only one descriptor's queue and connector change. -/
theorem served_update (hs : Served s) (socketFd : Int) (buffer : Entry Buffer)
    (connector : Entry Connector)
    (hbuffers : s'.sendBuffers = Function.update s.sendBuffers socketFd buffer)
    (hconnects : s'.sendConnects = Function.update s.sendConnects socketFd connector)
    (hothers : ∀ other, other ≠ socketFd → due s other ≤ due s' other)
    (hdue : buffer.measure (fun b => b.queue.contents.length) + connector.measure begun ≤
      due s' socketFd)
    (hqueue : buffer.Forall fun b => b.queue.WellFormed)
    (hconnector : connector.Forall fun c => c.bytesCount ≤ c.message.length)
    (hlinked : buffer.isAbsent = true ∨ ∃ c, connector = .live c) : Served s' := by
  have hself : s'.sendBuffers socketFd = buffer ∧ s'.sendConnects socketFd = connector := by
    rw [hbuffers, hconnects, Function.update_self, Function.update_self]
    exact ⟨rfl, rfl⟩
  have hsame : ∀ other, other ≠ socketFd → s'.sendBuffers other = s.sendBuffers other ∧
      s'.sendConnects other = s.sendConnects other := by
    intro other hne
    rw [hbuffers, hconnects, Function.update_of_ne hne, Function.update_of_ne hne]
    exact ⟨rfl, rfl⟩
  refine ⟨fun other => ?_, fun other => ?_, fun other => ?_, fun other => ?_⟩
  · rcases eq_or_ne other socketFd with rfl | hne
    · rw [unsent, hself.1, hself.2]
      exact hdue
    · rw [unsent, (hsame other hne).1, (hsame other hne).2]
      exact (hs.due other).trans (hothers other hne)
  · rcases eq_or_ne other socketFd with rfl | hne
    · rw [hself.1]
      exact hqueue
    · rw [(hsame other hne).1]
      exact hs.queue other
  · rcases eq_or_ne other socketFd with rfl | hne
    · rw [hself.2]
      exact hconnector
    · rw [(hsame other hne).2]
      exact hs.connector other
  · rcases eq_or_ne other socketFd with rfl | hne
    · rw [hself.1, hself.2]
      exact hlinked
    · rw [(hsame other hne).1, (hsame other hne).2]
      exact hs.linked other

theorem served_addSocketResource (hsize : 0 < socketBuffSize) (hs : Served s) :
    Served (s.addSocketResource socketBuffSize socketFd) := by
  cases habsent : (s.sendBuffers socketFd).isAbsent with
  | true =>
      refine served_update hs socketFd
        (.live { queue := .new socketBuffSize, connection := s.connections }) (.live {}) ?_ ?_
        (fun _ _ => le_rfl) (Nat.zero_le _)
        (SignalingQueue.wellFormed_new hsize) le_rfl (Or.inr ⟨{}, rfl⟩)
      · simp only [State.addSocketResource, habsent, if_true]
      · simp only [State.addSocketResource, habsent, if_true]
  | false =>
      refine served_congr hs ?_ ?_ fun _ => rfl
      · simp only [State.addSocketResource, habsent, Bool.false_eq_true, if_false]
      · simp only [State.addSocketResource, habsent, Bool.false_eq_true, if_false]

theorem served_removeSocketResource (hs : Served s) : Served (s.removeSocketResource socketFd) :=
  served_update hs socketFd .absent .absent rfl rfl (fun _ _ => le_rfl)
    (Nat.zero_le _) trivial trivial (Or.inl rfl)

/-- A message that is added is one more call that is due, whether the queue takes
it or not. -/
theorem served_sendProtocol (hs : Served s) {message : Str} {inSocketThread : Bool}
    (h : s.sendProtocol socketFd message inSocketThread = some s') : Served s' := by
  rw [State.sendProtocol] at h
  split at h
  · obtain rfl := Option.some.inj h
    exact hs
  · cases h
  · next buffer hentry =>
      obtain ⟨queue, hadd, rfl⟩ := Option.map_eq_some_iff.mp h
      have hq := hs.queue socketFd
      have hbefore := hs.due socketFd
      rw [hentry] at hq
      rw [unsent, hentry] at hbefore
      have hlength : queue.contents.length ≤ buffer.queue.contents.length + 1 := by
        by_cases haccepts : Accepts buffer.queue message
        · obtain ⟨stored, hstore, hfits⟩ := addBlocking_of_accepts haccepts
          obtain rfl := Option.some.inj (hstore.symm.trans hadd)
          rw [SignalingQueue.contents_store hq.consistent hfits, List.length_append,
            List.length_singleton]
        · rcases addBlocking_of_not_accepts haccepts with hnone | hsame
          · rw [hnone] at hadd
            cases hadd
          · obtain rfl := Option.some.inj (hsame.symm.trans hadd)
            exact Nat.le_succ _
      have hmore : ∀ other,
          due { s with sending := s.sending ++ [(socketFd, inSocketThread)] } other =
          due s other + if other = socketFd then 1 else 0 := by
        intro other
        simp only [due, List.map_append, List.map_singleton, List.count_append,
          List.count_singleton, beq_iff_eq, eq_comm (a := socketFd)]
        omega
      refine served_update hs socketFd (.live { buffer with queue := queue })
        (s.sendConnects socketFd) rfl (Function.update_eq_self _ _).symm
        (fun other _ => ?_) ?_ (wellFormed_addBlocking hq hadd) (hs.connector socketFd) ?_
      · exact (Nat.le_add_right _ _).trans_eq (hmore other).symm
      · refine le_trans ?_ (hmore socketFd).ge
        rw [if_pos rfl]
        simp only [Entry.measure] at hbefore ⊢
        omega
      · rcases hs.linked socketFd with habsent | hlive
        · rw [hentry] at habsent
          cases habsent
        · exact Or.inr hlive

theorem count_eraseIdx {calls : List (Int × Bool)} {index : Nat} {call : Int × Bool}
    (h : calls[index]? = some call) (other : Int) :
    ((calls.eraseIdx index).map Prod.fst).count other + (if other = call.1 then 1 else 0) =
      (calls.map Prod.fst).count other := by
  obtain ⟨hlt, hget⟩ := List.getElem?_eq_some_iff.mp h
  have hperm := (List.getElem_cons_eraseIdx_perm hlt).map Prod.fst
  rw [← hperm.count_eq other, List.map_cons, hget, List.count_cons]
  simp only [beq_iff_eq, eq_comm (a := call.1)]

/-- The event that is handled is a message less, or one more than was needed. -/
theorem served_handleSend {queueSend : List Int} (hs : Served s)
    (hiteration : s.iteration = some ([], socketFd :: queueSend)) {accepted : Nat}
    (hwhole : (offered s socketFd).length ≤ accepted ∨ unsent s socketFd < due s socketFd)
    (h : { s with iteration := some ([], queueSend) }.handleSend socketFd accepted = some s') :
    Served s' := by
  have hleft : ∀ other, due { s with iteration := some ([], queueSend) } other +
      (if other = socketFd then 1 else 0) = due s other := by
    intro other
    simp only [due, hiteration, List.count_cons, beq_iff_eq, eq_comm (a := socketFd)]
    omega
  have hneeded := hs.due socketFd
  rw [State.handleSend] at h
  split at h
  · next connector hconnector =>
      split at h
      · next buffer hbuffer =>
          have hq := hs.queue socketFd
          have hc := hs.connector socketFd
          dsimp only at hbuffer hconnector
          rw [hbuffer] at hq
          rw [hconnector] at hc
          obtain ⟨ret, sent, connector', queue, hsend, hqueue, hbytes, hle, hall⟩ :=
            send_spec hq hc accepted
          dsimp only at h
          rw [hsend] at h
          obtain rfl := Option.some.inj h
          refine served_update hs socketFd (.live { buffer with queue := queue })
            (.live connector') rfl rfl (fun other hne => ?_) ?_ hqueue hbytes
            (Or.inr ⟨connector', rfl⟩)
          · have hother := hleft other
            rw [if_neg hne] at hother
            exact hother.ge
          · have hhere := hleft socketFd
            rw [if_pos rfl] at hhere
            change _ ≤ due { s with iteration := some ([], queueSend) } socketFd
            simp only [offered, unsent, hbuffer, hconnector, Entry.measure] at hwhole hneeded ⊢
            rcases hwhole with hoffered | hmore
            · have hsent := hall hoffered
              omega
            · omega
      · cases h
  · next hnone =>
      obtain rfl := Option.some.inj h
      have habsent : (s.sendBuffers socketFd).isAbsent = true := by
        refine (hs.linked socketFd).resolve_right ?_
        rintro ⟨connector, hlive⟩
        exact hnone connector hlive
      have hempty : s.sendBuffers socketFd = .absent := by
        cases hentry : s.sendBuffers socketFd with
        | absent => rfl
        | null => rw [hentry] at habsent; cases habsent
        | live buffer => rw [hentry] at habsent; cases habsent
      refine served_update hs socketFd .absent .null ?_ rfl (fun other hne => ?_) (Nat.zero_le _)
        trivial trivial (Or.inl rfl)
      · rw [← hempty]
        exact (Function.update_eq_self _ _).symm
      · have hother := hleft other
        rw [if_neg hne] at hother
        exact hother.ge

theorem served_addReceiveSocketBuffer (hs : Served s) {socketFd : Int} {data : Str}
    (h : s.addReceiveSocketBuffer socketFd data = some s') : Served s' := by
  rw [State.addReceiveSocketBuffer] at h
  split at h
  · obtain rfl := Option.some.inj h
    exact hs
  · cases h
  · split at h
    · obtain rfl := Option.some.inj h
      exact served_congr hs rfl rfl fun _ => rfl
    · obtain rfl := Option.some.inj h
      exact served_congr hs rfl rfl fun _ => rfl

theorem served_handleReceive (hs : Served s) (socketFd : Int) :
    Served (s.handleReceive socketFd) := by
  rw [State.handleReceive]
  split
  · split
    · exact served_congr hs rfl rfl fun _ => rfl
    · exact served_congr hs rfl rfl fun _ => rfl
  · exact served_congr hs rfl rfl fun _ => rfl

theorem served_act (hsize : 0 < socketBuffSize) (hs : Served s) {a : Action}
    (hwhole : SendsWhole s a) (h : act socketBuffSize s a = some s') : Served s' := by
  cases act_cases h with
  | addReceiveSocketBuffer _ hadds => exact served_addReceiveSocketBuffer hs hadds
  | addSocketResource => exact served_addSocketResource hsize hs
  | removeSocketResource => exact served_removeSocketResource hs
  | sendProtocol _ hsends => exact served_sendProtocol hs hsends
  | @pushSendEvent index receiverFd _ hcall =>
      refine served_congr hs rfl rfl fun other => ?_
      have hcount := count_eraseIdx hcall other
      dsimp only at hcount
      simp only [due, List.count_append, List.count_singleton, beq_iff_eq,
        eq_comm (a := receiverFd)]
      omega
  | getSocketEvent hfree =>
      refine served_congr hs rfl rfl fun other => ?_
      simp only [due, hfree, List.count_nil]
      omega
  | @handleReceive socketFd queueReceive queueSend hiteration =>
      have hleft : Served { s with iteration := some (queueReceive, queueSend) } :=
        served_congr hs rfl rfl fun other => by simp only [due, hiteration]
      exact served_handleReceive hleft socketFd
  | handleSend hiteration _ hsends =>
      refine served_handleSend hs hiteration ?_ hsends
      simpa [SendsWhole, nextSend, hiteration] using hwhole
  | endIteration hiteration =>
      refine served_congr hs rfl rfl fun other => ?_
      simp only [due, hiteration, List.count_nil]

theorem served_step (hsize : 0 < socketBuffSize) (hs : Served s) {a : Action}
    (hwhole : SendsWhole s a) (h : step socketBuffSize s a = some s') : Served s' := by
  have hs₀ : Served { s with opened := none } := served_congr hs rfl rfl fun _ => rfl
  refine served_act hsize hs₀ ?_ h
  cases a <;> exact hwhole

theorem served_initial : Served {} where
  due _ := le_rfl
  queue _ := trivial
  connector _ := trivial
  linked _ := Or.inl rfl

/-- In a run in which the socket accepts what it is offered, or more calls are
due than messages left, nothing is stranded. -/
theorem nothing_stranded_of_sendsWhole (hsize : 0 < socketBuffSize) {as : List Action}
    (hwhole : Along (step socketBuffSize) SendsWhole {} as)
    (hrun : run (step socketBuffSize) {} as = some s) : NothingStranded s := by
  have hs : Served s :=
    invariant_along (fun _ _ _ hs hwhole h => served_step hsize hs hwhole h) served_initial hwhole
      hrun
  exact fun socketFd hnone => Nat.le_zero.mp (hnone ▸ hs.due socketFd)

/-- A message that is too long leaves an event behind, so that another can be
sent in two parts. -/
def surplusRun : List Action :=
  [.addSocketResource 5 false, .sendProtocol 5 "abcd".toList false, .pushSendEvent 0,
    .sendProtocol 5 "ab".toList false, .pushSendEvent 0, .getSocketEvent, .handleSend 1,
    .handleSend 1, .endIteration]

theorem surplusRun_strands_nothing :
    ∃ s, run (step 3) {} surplusRun = some s ∧ NothingStranded s := by
  have hruns : (run (step 3) {} surplusRun).isSome = true := by decide +kernel
  obtain ⟨s, hrun⟩ := Option.isSome_iff_exists.mp hruns
  exact ⟨s, hrun, nothing_stranded_of_sendsWhole (by decide) (by decide +kernel) hrun⟩

/-- The socket accepts one byte of two, and the event is gone. -/
def partialWriteRun : List Action :=
  [.addSocketResource 5 false, .sendProtocol 5 "ab".toList false, .pushSendEvent 0,
    .getSocketEvent, .handleSend 1, .endIteration]

theorem not_every_run_strands_nothing :
    ¬∀ (socketBuffSize : Nat) (as : List Action) (s : State), 0 < socketBuffSize →
      run (step socketBuffSize) {} as = some s → NothingStranded s := by
  intro hall
  have hleft : (run (step 3) {} partialWriteRun).map (fun s => (due s 5, unsent s 5)) =
      some (0, 1) := by
    decide +kernel
  obtain ⟨s, hrun, hs⟩ := Option.map_eq_some_iff.mp hleft
  obtain ⟨hdue, hunsent⟩ := Prod.mk.inj hs
  rw [hall 3 partialWriteRun s (by decide) hrun 5 hdue] at hunsent
  cases hunsent

end FastDCS.SendPath
