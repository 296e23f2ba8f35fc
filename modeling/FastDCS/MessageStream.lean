import FastDCS.SignalingQueue
import FastDCS.Runs
import FastDCS.Tracker

/-!
One direction of a connection: `SendProtocol`, the send queue, `Connector`, the
bytes under way, `EpollReadCallback`, the receive queue and `SocketThread`.
-/

namespace FastDCS.MessageStream

open FastDCS.Strings
open FastDCS.Messages
open FastDCS.Codecs
open FastDCS.Runs
open FastDCS.Tracker

/-- The serialization of messages. The field `id` is required, so that no
message serializes to nothing. -/
structure Format where
  serialize : TrackerProtocol → Str
  parse : Str → TrackerProtocol
  parse_serialize : ∀ proto, parse (serialize proto) = proto
  serialize_ne_nil : ∀ proto, serialize proto ≠ []

structure Connector where
  message : Str := []
  bytesCount : Nat := 0
deriving DecidableEq

namespace Connector

def load (c : Connector) (queue : SignalingQueue) : Connector × SignalingQueue :=
  if c.message.isEmpty then
    match queue.removeFront with
    | some (message, queue) => ({ c with message := message }, queue)
    | none => (c, queue)
  else (c, queue)

def offered (c : Connector) (queue : SignalingQueue) : Str :=
  (c.load queue).1.message.drop (c.load queue).1.bytesCount

/-- `Send` where the socket accepts so many bytes at most: what it returns, the
bytes accepted, and what it leaves. The message is not preceded by its size: the
insertion is commented out in the source. -/
def send (c : Connector) (queue : SignalingQueue) (accepted : Nat) :
    Int × Str × Connector × SignalingQueue :=
  let (c', queue') := c.load queue
  if c'.message.isEmpty then
    -- `SendFinal` sends a size of 0
    if queue'.emptyAndNoMoreAdd then
      (0, List.replicate 4 (Char.ofNat 0), { message := [], bytesCount := 4 }, queue')
    else (1, [], c', queue')
  else
    let sent := (c.offered queue).take accepted
    let bytesCount := c'.bytesCount + sent.length
    (1, sent, if bytesCount = c'.message.length then {} else { c' with bytesCount := bytesCount },
      queue')

end Connector

/-- The two ends of the connection. The events are the entries of the event
queues for its descriptor; `stuck` says that the receiver waits for its receive
queue with `mutex_socket_` held. The messages submitted and those processed are
recorded. -/
structure State where
  sendBuffer : SignalingQueue
  sendEvents : Nat := 0
  connector : Connector := {}
  wire : Str := []
  receiveBuffer : SignalingQueue
  receiveEvents : Nat := 0
  stuck : Bool := false
  submitted : List TrackerProtocol := []
  processed : List TrackerProtocol := []

/-- A thread calls `SendProtocol`, the sending socket thread handles a send
event while the socket accepts so many bytes, the read callback finds so many
bytes, or the receiving socket thread handles a receive event. -/
inductive Action where
  | sendProtocol (node : Node) (proto : TrackerProtocol)
  | send (accepted : Nat)
  | read (len : Nat)
  | receive

variable (format : Format)

def step (s : State) : Action → Option State
  | .sendProtocol node proto =>
      match s.sendBuffer.add (format.serialize (stamped node proto)) with
      | none => none
      | some (_, sendBuffer) =>
          some
            { s with
              sendBuffer := sendBuffer
              sendEvents := s.sendEvents + 1
              submitted := s.submitted ++ [stamped node proto] }
  | .send accepted =>
      if s.sendEvents = 0 then none
      else
        let (_, sent, connector, sendBuffer) := s.connector.send s.sendBuffer accepted
        some
          { s with
            sendBuffer := sendBuffer
            sendEvents := s.sendEvents - 1
            connector := connector
            wire := s.wire ++ sent }
  | .read len =>
      if s.stuck = true ∨ s.wire.take len = [] then none
      else
        match s.receiveBuffer.add (s.wire.take len) with
        | none => some { s with wire := s.wire.drop len, stuck := true }
        | some (_, receiveBuffer) =>
            some
              { s with
                wire := s.wire.drop len
                receiveBuffer := receiveBuffer
                receiveEvents := s.receiveEvents + 1 }
  | .receive =>
      if s.stuck = true ∨ s.receiveEvents = 0 then none
      else
        match s.receiveBuffer.remove with
        | none => some { s with stuck := true }
        | some (message, receiveBuffer) =>
            some
              { s with
                receiveBuffer := receiveBuffer
                receiveEvents := s.receiveEvents - 1
                processed := s.processed ++ [format.parse message] }

def initial (sendBuffSize receiveBuffSize : Nat) : State where
  sendBuffer := .new sendBuffSize
  receiveBuffer := .new receiveBuffSize

/-- Neither socket thread nor the read callback has anything left to do. -/
def Finished (s : State) : Prop :=
  (∀ accepted, step format s (.send accepted) = none) ∧
    (∀ len, step format s (.read len) = none) ∧ step format s .receive = none

/-- The messages processed are the first of those submitted, and all of them
once nothing is left to do. -/
def Delivered (s : State) : Prop :=
  s.processed <+: s.submitted ∧ (Finished format s → s.processed = s.submitted)

def Fits (s : State) : Action → Prop
  | .sendProtocol node proto =>
      (format.serialize (stamped node proto)).length ≤ s.sendBuffer.queueSize
  | _ => True

/-- The socket accepts all the bytes it is offered, and the read callback finds
exactly the bytes of the next message and room for them. -/
def KeepsBoundaries (s : State) : Action → Prop
  | .send accepted => (s.connector.offered s.sendBuffer).length ≤ accepted
  | .read len =>
      (s.submitted[s.processed.length + s.receiveBuffer.messagePositions.length]?).map
          format.serialize = some (s.wire.take len) ∧
        (s.wire.take len).length ≤ s.receiveBuffer.freeSize
  | _ => True

instance (s : State) (a : Action) : Decidable (Fits format s a) := by
  cases a <;> unfold Fits <;> infer_instance

instance (s : State) (a : Action) : Decidable (KeepsBoundaries format s a) := by
  cases a <;> unfold KeepsBoundaries <;> infer_instance

/-- Where the submitted messages are: each queue holds some whole messages, and
so do the bytes under way. -/
structure Whole (s : State) (arrived underWay unsent : List TrackerProtocol) : Prop where
  submitted : s.submitted = s.processed ++ arrived ++ underWay ++ unsent
  sendQueue : s.sendBuffer.WellFormed
  queued : s.sendBuffer.contents = unsent.map format.serialize
  sendEvents : s.sendEvents = unsent.length
  connector : s.connector = {}
  wire : s.wire = (underWay.map format.serialize).flatten
  receiveQueue : s.receiveBuffer.WellFormed
  received : s.receiveBuffer.contents = arrived.map format.serialize
  receiveEvents : s.receiveEvents = arrived.length
  moving : s.stuck = false

variable {format} {s s' : State} {arrived underWay unsent : List TrackerProtocol}

theorem whole_initial {sendBuffSize receiveBuffSize : Nat} (hsend : 0 < sendBuffSize)
    (hreceive : 0 < receiveBuffSize) :
    Whole format (initial sendBuffSize receiveBuffSize) [] [] [] where
  submitted := rfl
  sendQueue := SignalingQueue.wellFormed_new hsend
  queued := rfl
  sendEvents := rfl
  connector := rfl
  wire := rfl
  receiveQueue := SignalingQueue.wellFormed_new hreceive
  received := rfl
  receiveEvents := rfl
  moving := rfl

theorem whole_sendProtocol (hs : Whole format s arrived underWay unsent) {node : Node}
    {proto : TrackerProtocol} (hfits : Fits format s (.sendProtocol node proto))
    (h : step format s (.sendProtocol node proto) = some s') :
    Whole format s' arrived underWay (unsent ++ [stamped node proto]) := by
  have hne := format.serialize_ne_nil (stamped node proto)
  rw [step] at h
  rcases Nat.lt_or_ge s.sendBuffer.freeSize (format.serialize (stamped node proto)).length
    with hfull | hroom
  · rw [SignalingQueue.add_eq_none hfits hne hs.sendQueue hfull] at h
    cases h
  · obtain ⟨q, hadd, hq, hcontents, _⟩ := SignalingQueue.add_spec hne hs.sendQueue hroom
    rw [hadd] at h
    obtain rfl := Option.some.inj h
    exact
      { submitted := by
          dsimp only
          rw [hs.submitted, List.append_assoc _ unsent]
        sendQueue := hq
        queued := by rw [hcontents, hs.queued, List.map_append, List.map_singleton]
        sendEvents := by simp [hs.sendEvents]
        connector := hs.connector
        wire := hs.wire
        receiveQueue := hs.receiveQueue
        received := hs.received
        receiveEvents := hs.receiveEvents
        moving := hs.moving }

theorem send_of_contents_cons {queue : SignalingQueue} {message : Str} {rest : List Str}
    (hq : queue.WellFormed) (hcontents : queue.contents = message :: rest) (hne : message ≠ [])
    {accepted : Nat} (hall : (Connector.offered {} queue).length ≤ accepted) :
    ∃ queue', Connector.send {} queue accepted = (1, message, {}, queue') ∧ queue'.WellFormed ∧
      queue'.contents = rest := by
  obtain ⟨queue', hremove, hq', hrest, _⟩ := SignalingQueue.removeFront_spec hq hcontents
  have hload : Connector.load {} queue = ({ message := message }, queue') := by
    simp [Connector.load, hremove]
  have hoffered : Connector.offered {} queue = message := by
    simp [Connector.offered, hload]
  refine ⟨queue', ?_, hq', hrest⟩
  rw [hoffered] at hall
  simp [Connector.send, hload, hoffered, hne, List.take_of_length_le hall]

theorem whole_send (hs : Whole format s arrived underWay unsent) {accepted : Nat}
    (hall : KeepsBoundaries format s (.send accepted))
    (h : step format s (.send accepted) = some s') :
    ∃ proto rest, unsent = proto :: rest ∧ Whole format s' arrived (underWay ++ [proto]) rest := by
  rw [step] at h
  cases unsent with
  | nil =>
      have hnone : s.sendEvents = 0 := hs.sendEvents
      rw [if_pos hnone] at h
      cases h
  | cons proto rest =>
      have hevents := hs.sendEvents
      rw [KeepsBoundaries, hs.connector] at hall
      obtain ⟨queue, hsend, hq, hcontents⟩ := send_of_contents_cons hs.sendQueue hs.queued
        (format.serialize_ne_nil proto) hall
      rw [if_neg (by rw [hevents]; exact Nat.succ_ne_zero _), hs.connector, hsend] at h
      obtain rfl := Option.some.inj h
      exact ⟨proto, rest, rfl,
        { submitted := by
            dsimp only
            rw [hs.submitted]
            simp
          sendQueue := hq
          queued := hcontents
          sendEvents := by simp [hevents]
          connector := rfl
          wire := by
            dsimp only
            rw [hs.wire]
            simp
          receiveQueue := hs.receiveQueue
          received := hs.received
          receiveEvents := hs.receiveEvents
          moving := hs.moving }⟩

theorem whole_read (hs : Whole format s arrived underWay unsent) {len : Nat}
    (hwhole : KeepsBoundaries format s (.read len))
    (h : step format s (.read len) = some s') :
    ∃ proto rest, underWay = proto :: rest ∧ Whole format s' (arrived ++ [proto]) rest unsent := by
  obtain ⟨hnext, hroom⟩ := hwhole
  have hcount : s.receiveBuffer.messagePositions.length = arrived.length := by
    have hlength := congrArg List.length hs.received
    simpa [SignalingQueue.contents, CircularBuffer.blocks] using hlength
  rw [step] at h
  split_ifs at h with hidle
  have hchunk : s.wire.take len ≠ [] := fun hnil => hidle (Or.inr hnil)
  obtain ⟨proto, rest, rfl⟩ : ∃ proto rest, underWay = proto :: rest := by
    cases underWay with
    | nil =>
        rw [hs.wire] at hchunk
        exact absurd (by simp) hchunk
    | cons proto rest => exact ⟨proto, rest, rfl⟩
  have htake : s.wire.take len = format.serialize proto := by
    rw [hcount, hs.submitted, ← List.length_append] at hnext
    simpa [eq_comm] using hnext
  have hdrop : s.wire.drop len = (rest.map format.serialize).flatten := by
    have hsplit := List.take_append_drop len s.wire
    rw [htake, hs.wire, List.map_cons, List.flatten_cons] at hsplit
    rw [hs.wire]
    exact List.append_cancel_left hsplit
  obtain ⟨q, hadd, hq, hcontents, _⟩ := SignalingQueue.add_spec hchunk hs.receiveQueue hroom
  rw [hadd] at h
  obtain rfl := Option.some.inj h
  exact ⟨proto, rest, rfl,
    { submitted := by
        dsimp only
        rw [hs.submitted]
        simp
      sendQueue := hs.sendQueue
      queued := hs.queued
      sendEvents := hs.sendEvents
      connector := hs.connector
      wire := hdrop
      receiveQueue := hq
      received := by rw [hcontents, hs.received, htake, List.map_append, List.map_singleton]
      receiveEvents := by simp [hs.receiveEvents]
      moving := hs.moving }⟩

theorem whole_receive (hs : Whole format s arrived underWay unsent)
    (h : step format s .receive = some s') :
    ∃ proto rest, arrived = proto :: rest ∧ Whole format s' rest underWay unsent := by
  rw [step] at h
  split_ifs at h with hidle
  cases arrived with
  | nil => exact absurd (Or.inr hs.receiveEvents) hidle
  | cons proto rest =>
      obtain ⟨q, hremove, hq, hcontents, _⟩ :=
        SignalingQueue.removeFront_spec hs.receiveQueue hs.received
      rw [SignalingQueue.remove, hremove] at h
      obtain rfl := Option.some.inj h
      have hevents := hs.receiveEvents
      exact ⟨proto, rest, rfl,
        { submitted := by
            dsimp only
            rw [hs.submitted, format.parse_serialize]
            simp
          sendQueue := hs.sendQueue
          queued := hs.queued
          sendEvents := hs.sendEvents
          connector := hs.connector
          wire := hs.wire
          receiveQueue := hq
          received := hcontents
          receiveEvents := by simp [hevents]
          moving := hs.moving }⟩

/-- A step that keeps the boundaries moves whole messages on. -/
theorem whole_step {a : Action} (hs : ∃ arrived underWay unsent,
      Whole format s arrived underWay unsent)
    (hall : Fits format s a ∧ KeepsBoundaries format s a) (h : step format s a = some s') :
    ∃ arrived underWay unsent, Whole format s' arrived underWay unsent := by
  obtain ⟨arrived, underWay, unsent, hs⟩ := hs
  cases a with
  | sendProtocol node proto => exact ⟨_, _, _, whole_sendProtocol hs hall.1 h⟩
  | send accepted =>
      obtain ⟨proto, rest, _, hs'⟩ := whole_send hs hall.2 h
      exact ⟨_, _, _, hs'⟩
  | read len =>
      obtain ⟨proto, rest, _, hs'⟩ := whole_read hs hall.2 h
      exact ⟨_, _, _, hs'⟩
  | receive =>
      obtain ⟨proto, rest, _, hs'⟩ := whole_receive hs h
      exact ⟨_, _, _, hs'⟩

theorem finished_iff : Finished format s ↔ s.sendEvents = 0 ∧
    (s.stuck = true ∨ s.wire = []) ∧ (s.stuck = true ∨ s.receiveEvents = 0) := by
  have hsend : ∀ accepted, step format s (.send accepted) = none ↔ s.sendEvents = 0 := by
    intro accepted
    rw [step]
    split_ifs with h <;> simp [h]
  have hread : ∀ len, step format s (.read len) = none ↔
      s.stuck = true ∨ s.wire.take len = [] := by
    intro len
    rw [step]
    split_ifs with h
    · exact iff_of_true rfl h
    · refine iff_of_false ?_ h
      cases s.receiveBuffer.add (s.wire.take len) <;> exact Option.some_ne_none _
  have hreceive : step format s .receive = none ↔ s.stuck = true ∨ s.receiveEvents = 0 := by
    rw [step]
    split_ifs with h
    · exact iff_of_true rfl h
    · refine iff_of_false ?_ h
      cases s.receiveBuffer.remove <;> exact Option.some_ne_none _
  simp only [Finished, hsend, hread, hreceive, forall_const]
  refine and_congr_right fun _ => and_congr_left fun _ => ?_
  constructor
  · intro h
    simpa using h s.wire.length
  · intro h len
    refine h.imp_right fun hnil => ?_
    rw [hnil, List.take_nil]

/-- While whole messages lie in the queues, something is left to do. -/
theorem delivered_of_whole (hs : Whole format s arrived underWay unsent) : Delivered format s := by
  refine ⟨⟨arrived ++ underWay ++ unsent, by simp [hs.submitted]⟩, fun hfinished => ?_⟩
  obtain ⟨hsend, hread, hreceive⟩ := finished_iff.mp hfinished
  have hmoving : s.stuck ≠ true := ne_true_of_eq_false hs.moving
  obtain rfl : unsent = [] := List.length_eq_zero_iff.mp (hs.sendEvents.symm.trans hsend)
  obtain rfl : arrived = [] :=
    List.length_eq_zero_iff.mp (hs.receiveEvents.symm.trans (hreceive.resolve_left hmoving))
  obtain rfl : underWay = [] := by
    have hwire := hread.resolve_left hmoving
    rw [hs.wire, List.flatten_eq_nil_iff] at hwire
    refine List.eq_nil_iff_forall_not_mem.mpr fun proto hproto => ?_
    exact format.serialize_ne_nil proto (hwire _ (List.mem_map_of_mem hproto))
  simp [hs.submitted]

/-- In a run that keeps the boundaries the messages are processed as submitted,
each once and in order. -/
theorem delivered_of_boundaries_kept {sendBuffSize receiveBuffSize : Nat}
    (hsend : 0 < sendBuffSize) (hreceive : 0 < receiveBuffSize) {as : List Action}
    (hall : Along (step format) (fun s a => Fits format s a ∧ KeepsBoundaries format s a)
      (initial sendBuffSize receiveBuffSize) as)
    (hrun : run (step format) (initial sendBuffSize receiveBuffSize) as = some s) :
    Delivered format s := by
  obtain ⟨arrived, underWay, unsent, hs⟩ :=
    invariant_along (fun _ _ _ hs ha h => whole_step hs ha h)
      ⟨[], [], [], whole_initial hsend hreceive⟩ hall hrun
  exact delivered_of_whole hs

section Coalescing

def protocolTypes : List ProtocolType :=
  [.unknownProtocol, .election, .coordinator, .masterAskTracker, .masterReportStatus,
    .workerAskTracker, .workerReportStatus, .createJobId, .commitJob, .syncTaskDuplicate,
    .requestTaskDuplicate, .workerRequestTask, .taskCompleted, .askTaskStatus, .masterJoinGroup,
    .masterGroupChanged]

def protocolTypeCodec : Codec Char ProtocolType :=
  lengthCodec.retract (protocolTypes.idxOf ·) (fun n => protocolTypes.getD n .unknownProtocol)
    fun protocolType => by cases protocolType <;> rfl

def protocolCodec : Codec Char TrackerProtocol :=
  (protocolTypeCodec.prod (stringCodec.prod (stringCodec.prod (stringCodec.prod
      ((Codec.int lengthCodec).prod
        (stringCodec.prod (.list lengthCodec keyValuesPairCodec))))))).retract
    (fun p => (p.protocolType, p.requestSockAddr, p.requestArgs, p.responseSockAddr,
      p.forwardingSockFd, p.responseResult, p.keyValuesPairs))
    (fun r => ⟨r.1, r.2.1, r.2.2.1, r.2.2.2.1, r.2.2.2.2.1, r.2.2.2.2.2.1, r.2.2.2.2.2.2⟩)
    fun _ => rfl

def plainFormat : Format where
  serialize := protocolCodec.encode
  parse := protocolCodec.read {}
  parse_serialize := protocolCodec.read_encode {}
  serialize_ne_nil proto h := by
    have hread := protocolCodec.decode_encode proto []
    rw [h] at hread
    cases hread

def worker : Node := { fdcsEnv := { settings := {
  trackerGroup := "10.0.0.1:1".toList, trackerServer := [] } }, isMaster := false }

def separateRun : List Action :=
  [.sendProtocol worker { protocolType := .workerAskTracker }, .send 100, .read 13,
    .sendProtocol worker { protocolType := .workerRequestTask }, .receive, .send 100, .read 19,
    .receive]

def coalescedRun : List Action :=
  [.sendProtocol worker { protocolType := .workerAskTracker },
    .sendProtocol worker { protocolType := .workerRequestTask }, .send 100, .send 100, .read 100,
    .receive]

theorem separateRun_delivers :
    ∃ s, run (step plainFormat) (initial 100 100) separateRun = some s ∧
      Delivered plainFormat s := by
  have hruns : (run (step plainFormat) (initial 100 100) separateRun).isSome = true := by
    decide +kernel
  obtain ⟨s, hrun⟩ := Option.isSome_iff_exists.mp hruns
  exact ⟨s, hrun, delivered_of_boundaries_kept (by decide) (by decide) (by decide +kernel) hrun⟩

/-- Read together, two messages are parsed as one. -/
theorem not_every_run_delivers :
    ¬∀ (format : Format) (sendBuffSize receiveBuffSize : Nat) (as : List Action) (s : State),
      0 < sendBuffSize → 0 < receiveBuffSize →
        Along (step format) (Fits format) (initial sendBuffSize receiveBuffSize) as →
          run (step format) (initial sendBuffSize receiveBuffSize) as = some s →
            Delivered format s := by
  intro hall
  have hend : (run (step plainFormat) (initial 100 100) coalescedRun).map
      (fun s => (s.sendEvents, s.wire, s.receiveEvents, s.submitted.length, s.processed.length)) =
        some (0, [], 0, 2, 1) := by
    decide +kernel
  obtain ⟨s, hrun, heq⟩ := Option.map_eq_some_iff.mp hend
  simp only [Prod.mk.injEq] at heq
  obtain ⟨hsend, hwire, hreceive, hsubmitted, hprocessed⟩ := heq
  have hdelivered := hall plainFormat 100 100 coalescedRun s (by decide) (by decide)
    (by decide +kernel) hrun
  have hsame := hdelivered.2 (finished_iff.mpr ⟨hsend, Or.inr hwire, Or.inr hreceive⟩)
  rw [hsame, hsubmitted] at hprocessed
  exact absurd hprocessed (by decide)

end Coalescing

end FastDCS.MessageStream
