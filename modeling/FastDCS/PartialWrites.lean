import Mathlib.Algebra.Order.BigOperators.Group.List
import FastDCS.Framing
import FastDCS.QueueThreads

/-!
`Connector::Send` socket call by socket call: each call may accept any part of
what it is offered, and other threads use the queue in between.
-/

namespace FastDCS.PartialWrites

open FastDCS.Strings
open FastDCS.Framing
open FastDCS.QueueCalls
open FastDCS.QueueThreads
open FastDCS.Runs

/-- Where the socket thread stands: it has returned, it is between `Remove` and
`EmptyAndNoMoreAdd`, or its next step is the socket call of `Send` or one of
`SendFinal`. -/
inductive Position where
  | returned (value : Int)
  | checking
  | sendMessage
  | sendFinal
deriving DecidableEq

/-- An `int` where it is stored in a `uint32`. -/
def toUint32 (n : Int) : Nat := (n % 2 ^ 32).toNat

/-- The bytes of a `uint32` in memory, the lowest first. -/
def sizeBytes (n : Nat) : Str := (List.range 4).map fun k => Char.ofNat (n / 256 ^ k % 256)

/-- The first `Remove` of `Send`. -/
def load (c : Receiver) (queue : SignalingQueue) : Receiver × SignalingQueue × Position :=
  if c.message.isEmpty then
    match queue.removeFront with
    | none => ({ c with messageSize := 0 }, queue, .checking)
    | some (message, left) =>
        ({ c with message := message, messageSize := message.length }, left,
          if message.isEmpty then .checking else .sendMessage)
  else (c, queue, .sendMessage)

/-- `EmptyAndNoMoreAdd` and the beginning of `SendFinal`. -/
def check (c : Receiver) (queue : SignalingQueue) : Receiver × Position :=
  if queue.emptyAndNoMoreAdd then ({ c with messageSize := 0, bytesCount := 0 }, .sendFinal)
  else (c, .returned 1)

/-- The bytes that the socket call at this position is offered. -/
def offered (c : Receiver) : Position → Str
  | .sendMessage => c.message.drop c.bytesCount
  | .sendFinal => (sizeBytes c.messageSize).drop c.bytesCount
  | _ => []

/-- What `Send` and `SendFinal` do with the result of the socket call. -/
def socketReturned (c : Receiver) (position : Position) (result : Int) : Receiver × Position :=
  let thisSend := toUint32 result
  match position with
  | .sendMessage =>
      if thisSend < 0 then (c, .returned (-1))
      else
        let c' := c.count thisSend
        if c'.bytesCount = c'.message.length then ({}, .returned 1) else (c', .returned 1)
  | .sendFinal =>
      if thisSend < 0 then (c, .returned (-1))
      else
        let c' := c.count thisSend
        if c'.bytesCount < 4 then (c', .sendFinal) else (c', .returned 0)
  | _ => (c, position)

/-- A connector and its queue. The bytes that the socket has accepted and the
messages that have been put into the queue are recorded. -/
structure State where
  queue : SignalingQueue
  connector : Receiver := {}
  position : Position := .returned 1
  accepted : Str := []
  queued : List Str := []

inductive Action where
  | add (src : Str) (size : Int) (readable : size ≤ src.length)
  | signal (producerId : Int)
  | send
  | check
  | socket (sent : Nat)

def step (s : State) : Action → Option State
  | .add src size readable =>
      let (answer, queue) := s.queue.call (.add src size readable)
      some
        { s with
          queue := queue
          queued :=
            if 0 < size ∧ answer = .size size then s.queued ++ [src.take size.toNat]
            else s.queued }
  | .signal producerId => some { s with queue := s.queue.signal producerId }
  | .send =>
      match s.position with
      | .returned _ =>
          let (connector, queue, position) := load s.connector s.queue
          some { s with connector := connector, queue := queue, position := position }
      | _ => none
  | .check =>
      match s.position with
      | .checking =>
          let (connector, position) := check s.connector s.queue
          some { s with connector := connector, position := position }
      | _ => none
  | .socket sent =>
      if s.position = .sendMessage ∨ s.position = .sendFinal then
        if sent ≤ (offered s.connector s.position).length then
          let (connector, position) := socketReturned s.connector s.position sent
          some
            { s with
              connector := connector
              position := position
              accepted := s.accepted ++ (offered s.connector s.position).take sent }
        else none
      else none

def initial (queueSize numProducers : Nat) : State where
  queue := .create queueSize numProducers

def zeros (n : Nat) : Str := List.replicate n (Char.ofNat 0)

/-- What the socket still lacks is what is left of the message and of the queue. -/
structure SendsMessages (s : State) : Prop where
  bytes : s.accepted ++ s.connector.message.drop s.connector.bytesCount ++
    s.queue.contents.flatten = s.queued.flatten
  bytesCount_le : s.connector.bytesCount ≤ s.connector.message.length

/-- All the messages have been sent, and behind them FINAL frames, the last one
as far as `bytes_count_` says. -/
structure SendsFinal (s : State) : Prop where
  ended : s.queue.emptyAndNoMoreAdd = true
  message : s.connector.message = []
  bytesCount_le : s.connector.bytesCount ≤ 4
  bytes : ∃ frames, s.accepted = s.queued.flatten ++ zeros (4 * frames + s.connector.bytesCount)

/-- How the position goes with the connector while messages are sent. -/
def Position.Agrees (c : Receiver) : Position → Prop
  | .returned _ => c.message = [] ∧ c.bytesCount = 0 ∨ c.bytesCount < c.message.length
  | .checking => c.message = [] ∧ c.bytesCount = 0
  | .sendMessage => c.bytesCount < c.message.length
  | .sendFinal => False

/-- How it goes with the connector once FINAL frames are sent. -/
def Position.AgreesFinal (c : Receiver) : Position → Prop
  | .returned _ => c.bytesCount = 4
  | .checking => c.bytesCount = 4
  | .sendMessage => False
  | .sendFinal => c.bytesCount < 4 ∧ c.messageSize = 0

/-- The queue is sound, its size is an `int`, and no message in it is empty. -/
structure QueueInv (q : SignalingQueue) : Prop where
  consistent : q.Consistent
  size_lt : q.queueSize < 2 ^ 31
  nonempty : ∀ message ∈ q.contents, message ≠ []

structure Inv (s : State) : Prop where
  queue : QueueInv s.queue
  message_lt : s.connector.message.length < 2 ^ 31
  sends : SendsMessages s ∧ s.position.Agrees s.connector ∨
    SendsFinal s ∧ s.position.AgreesFinal s.connector

variable {s s' : State} {q : SignalingQueue}

theorem QueueInv.length_lt (hq : QueueInv q) {message : Str} (h : message ∈ q.contents) :
    message.length < 2 ^ 31 := by
  have hle : message.length ≤ (q.contents.map List.length).sum :=
    List.le_sum_of_mem (List.mem_map_of_mem h)
  have htotal := SignalingQueue.freeSize_add_total hq.consistent
  have hsize := hq.size_lt
  omega

/-- A message is turned away, or it is the last one of the queue afterwards. -/
theorem call_add (hq : QueueInv q) {src : Str} {size : Int} (readable : size ≤ src.length) :
    ∃ answer left, q.call (.add src size readable) = (answer, left) ∧ QueueInv left ∧
      (0 < size ∧ answer = .size size ∧ q.noMoreAdd = false ∧
          left.contents = q.contents ++ [src.take size.toNat] ∨
        ¬(0 < size ∧ answer = .size size) ∧ left = q) := by
  rw [SignalingQueue.call]
  split_ifs with hrejects hfull
  · refine ⟨_, _, rfl, hq, Or.inr ⟨?_, rfl⟩⟩
    rintro ⟨hpos, heq⟩
    have hsize : size = -1 := by simpa [eq_comm] using heq
    omega
  · refine ⟨_, _, rfl, hq, Or.inr ⟨?_, rfl⟩⟩
    rintro ⟨hpos, heq⟩
    have hsize : size = 0 := by simpa [eq_comm] using heq
    omega
  · simp only [SignalingQueue.rejects, Bool.or_eq_true, decide_eq_true_iff, not_or,
      not_le] at hrejects
    obtain ⟨⟨_, hpos⟩, hmore⟩ := hrejects
    have hlength : (src.take size.toNat).length = size.toNat := by
      rw [List.length_take]
      omega
    have hfree : (src.take size.toNat).length ≤ q.freeSize := by omega
    have hcontents := SignalingQueue.contents_store hq.consistent hfree
    refine ⟨_, _, rfl, ⟨SignalingQueue.consistent_store hq.consistent hfree, hq.size_lt, ?_⟩,
      Or.inl ⟨hpos, rfl, Bool.eq_false_iff.mpr hmore, hcontents⟩⟩
    intro message hmem
    rw [hcontents, List.mem_append, List.mem_singleton] at hmem
    rcases hmem with hold | rfl
    · exact hq.nonempty message hold
    · intro hnil
      rw [hnil, List.length_nil] at hlength
      omega

theorem removeFront_cases (hq : QueueInv q) :
    q.contents = [] ∧ q.removeFront = none ∨
      ∃ message left, q.removeFront = some (message, left) ∧ QueueInv left ∧ message ≠ [] ∧
        message.length < 2 ^ 31 ∧ q.contents = message :: left.contents := by
  rcases hcontents : q.contents with _ | ⟨message, rest⟩
  · exact Or.inl ⟨rfl, SignalingQueue.removeFront_nil hcontents⟩
  · obtain ⟨left, hremove, hleft, rfl, hsame⟩ :=
      SignalingQueue.removeFront_cons hq.consistent hcontents
    have hmem : ∀ other ∈ message :: left.contents, other ∈ q.contents := by
      rw [hcontents]
      intro other h
      exact h
    have hsize : left.queueSize = q.queueSize := by rw [hsame]
    refine Or.inr ⟨message, left, hremove, ⟨hleft, hsize ▸ hq.size_lt, ?_⟩,
      hq.nonempty message (hmem message List.mem_cons_self),
      hq.length_lt (hmem message List.mem_cons_self), rfl⟩
    intro other h
    exact hq.nonempty other (hmem other (List.mem_cons_of_mem _ h))

theorem inv_add (hs : Inv s) {src : Str} {size : Int} {readable : size ≤ src.length}
    (h : step s (.add src size readable) = some s') : Inv s' := by
  obtain ⟨answer, left, hcall, hleft, hcases⟩ := call_add hs.queue readable
  rw [step, hcall] at h
  obtain rfl := Option.some.inj h
  refine ⟨hleft, hs.message_lt, ?_⟩
  rcases hcases with ⟨hpos, hanswer, hopen, hcontents⟩ | ⟨hturned, rfl⟩
  · rw [if_pos ⟨hpos, hanswer⟩]
    rcases hs.sends with ⟨hsends, hagrees⟩ | ⟨hfinal, _⟩
    · refine Or.inl ⟨⟨?_, hsends.bytesCount_le⟩, hagrees⟩
      dsimp only
      rw [hcontents, List.flatten_append, List.flatten_append, ← hsends.bytes]
      simp only [List.append_assoc]
    · have hended := (emptyAndNoMoreAdd_iff.mp hfinal.ended).2
      rw [hopen] at hended
      cases hended
  · rw [if_neg hturned]
    exact hs.sends.imp (And.imp_left fun hsends => ⟨hsends.bytes, hsends.bytesCount_le⟩)
      (And.imp_left fun hfinal => ⟨hfinal.ended, hfinal.message, hfinal.bytesCount_le,
        hfinal.bytes⟩)

theorem inv_signal (hs : Inv s) {producerId : Int} (h : step s (.signal producerId) = some s') :
    Inv s' := by
  rw [step] at h
  obtain rfl := Option.some.inj h
  refine ⟨⟨⟨hs.queue.consistent.size_pos, hs.queue.consistent.length_queue,
    hs.queue.consistent.laid⟩, hs.queue.size_lt, hs.queue.nonempty⟩, hs.message_lt, ?_⟩
  rcases hs.sends with ⟨hsends, hagrees⟩ | ⟨hfinal, hagrees⟩
  · exact Or.inl ⟨⟨hsends.bytes, hsends.bytesCount_le⟩, hagrees⟩
  · obtain ⟨hempty, hended⟩ := emptyAndNoMoreAdd_iff.mp hfinal.ended
    refine Or.inr ⟨⟨?_, hfinal.message, hfinal.bytesCount_le, hfinal.bytes⟩, hagrees⟩
    exact emptyAndNoMoreAdd_iff.mpr ⟨hempty, noMoreAdd_signal hended producerId⟩

/-- `Send` keeps the message it has, and takes the first one where it has none. -/
theorem inv_load (hs : Inv s) {value : Int} (hposition : s.position = .returned value)
    {c : Receiver} {queue : SignalingQueue} {position : Position}
    (h : load s.connector s.queue = (c, queue, position)) :
    Inv { s with connector := c, queue := queue, position := position } := by
  have hsends := hs.sends
  rw [hposition] at hsends
  rw [load] at h
  by_cases hmessage : s.connector.message = []
  · have hidle : s.connector.bytesCount < s.connector.message.length ↔ False := by
      rw [hmessage, iff_false]
      exact Nat.not_lt_zero _
    rw [if_pos (List.isEmpty_iff.mpr hmessage)] at h
    rcases removeFront_cases hs.queue with ⟨_, hnone⟩ |
      ⟨message, left, hremove, hleft, hne, hlt, hcontents⟩
    · rw [hnone] at h
      cases h
      refine ⟨hs.queue, hs.message_lt, hsends.imp ?_ ?_⟩
      · rintro ⟨hsends, hagrees⟩
        rw [Position.Agrees, hidle, or_false] at hagrees
        exact ⟨⟨hsends.bytes, hsends.bytesCount_le⟩, hagrees⟩
      · rintro ⟨hfinal, hfour⟩
        exact ⟨⟨hfinal.ended, hmessage, hfinal.bytesCount_le, hfinal.bytes⟩, hfour⟩
    · rw [hremove] at h
      dsimp only at h
      rw [if_neg (by rwa [List.isEmpty_iff])] at h
      cases h
      refine ⟨hleft, hlt, Or.inl ?_⟩
      rcases hsends with ⟨hsends, hagrees⟩ | ⟨hfinal, _⟩
      · rw [Position.Agrees, hidle, or_false] at hagrees
        have hpos : 0 < message.length := List.length_pos_iff.mpr hne
        have hbytes := hsends.bytes
        rw [hagrees.1, hagrees.2, hcontents, List.drop_nil, List.append_nil,
          List.flatten_cons] at hbytes
        refine ⟨⟨?_, ?_⟩, ?_⟩
        · dsimp only
          rw [hagrees.2, ← hbytes, List.drop_zero, List.append_assoc]
        · dsimp only
          omega
        · change s.connector.bytesCount < message.length
          omega
      · have hended := (emptyAndNoMoreAdd_iff.mp hfinal.ended).1
        rw [hcontents] at hended
        cases hended
  · rw [if_neg (by rwa [List.isEmpty_iff])] at h
    cases h
    refine ⟨hs.queue, hs.message_lt, Or.inl ?_⟩
    rcases hsends with ⟨hsends, hidle | hpart⟩ | ⟨hfinal, _⟩
    · exact absurd hidle.1 hmessage
    · exact ⟨⟨hsends.bytes, hsends.bytesCount_le⟩, hpart⟩
    · exact absurd hfinal.message hmessage

/-- `SendFinal` begins only behind the last message. -/
theorem inv_check (hs : Inv s) (hposition : s.position = .checking) {c : Receiver}
    {position : Position} (h : check s.connector s.queue = (c, position)) :
    Inv { s with connector := c, position := position } := by
  have hsends := hs.sends
  rw [hposition] at hsends
  rw [check] at h
  split_ifs at h with hended
  · cases h
    refine ⟨hs.queue, hs.message_lt, Or.inr ?_⟩
    rcases hsends with ⟨hsends, hmessage, hcount⟩ | ⟨hfinal, hfour⟩
    · have hbytes := hsends.bytes
      rw [hmessage, (emptyAndNoMoreAdd_iff.mp hended).1] at hbytes
      refine ⟨⟨hended, hmessage, Nat.zero_le _, 0, ?_⟩, Nat.zero_lt_succ 3, rfl⟩
      simpa [zeros] using hbytes
    · obtain ⟨frames, hbytes⟩ := hfinal.bytes
      rw [Position.AgreesFinal] at hfour
      refine ⟨⟨hended, hfinal.message, Nat.zero_le _, frames + 1, ?_⟩,
        Nat.zero_lt_succ 3, rfl⟩
      rw [hfour] at hbytes
      exact hbytes
  · cases h
    refine ⟨hs.queue, hs.message_lt, Or.inl ?_⟩
    rcases hsends with ⟨hsends, hidle⟩ | ⟨hfinal, _⟩
    · exact ⟨⟨hsends.bytes, hsends.bytesCount_le⟩, Or.inl hidle⟩
    · exact absurd hfinal.ended hended

theorem toUint32_natCast {n : Nat} (h : n < 2 ^ 32) : toUint32 n = n := by
  rw [toUint32]
  omega

theorem count_eq {c : Receiver} {sent : Nat} (h : c.bytesCount + sent < 2 ^ 32) :
    c.count (toUint32 sent) = { c with bytesCount := c.bytesCount + sent } := by
  rw [toUint32_natCast (by omega), Receiver.count, Nat.mod_eq_of_lt h]

/-- What the socket accepts of a message is taken from what is left of it. -/
theorem inv_sendMessage (hs : Inv s) (hposition : s.position = .sendMessage) {sent : Nat}
    (hle : sent ≤ (offered s.connector s.position).length) :
    Inv
      { s with
        connector := (socketReturned s.connector s.position sent).1
        position := (socketReturned s.connector s.position sent).2
        accepted := s.accepted ++ (offered s.connector s.position).take sent } := by
  have hlt := hs.message_lt
  have hsends := hs.sends
  rw [hposition] at hsends hle ⊢
  rcases hsends with ⟨hsends, hpart⟩ | ⟨_, hno⟩
  · rw [Position.Agrees] at hpart
    rw [offered, List.length_drop] at hle
    have hbytes := hsends.bytes
    rw [← List.take_append_drop sent (s.connector.message.drop s.connector.bytesCount),
      List.drop_drop] at hbytes
    rw [socketReturned, if_neg (Nat.not_lt_zero _), count_eq (by omega), offered]
    dsimp only
    split_ifs with hcomplete
    · rw [hcomplete, List.drop_length, List.append_nil] at hbytes
      refine ⟨hs.queue, Nat.two_pow_pos 31, Or.inl ⟨⟨?_, le_rfl⟩, Or.inl ⟨rfl, rfl⟩⟩⟩
      rw [List.drop_nil, List.append_nil]
      exact hbytes
    · refine ⟨hs.queue, hlt, Or.inl ⟨⟨?_, ?_⟩, Or.inr ?_⟩⟩
      · rw [← hbytes]
        simp only [List.append_assoc]
      · dsimp only
        omega
      · dsimp only
        omega
  · exact absurd hno id

theorem take_drop_zeros {sent k : Nat} (h : sent ≤ 4 - k) :
    ((sizeBytes 0).drop k).take sent = zeros sent := by
  have hzeros : sizeBytes 0 = zeros 4 := by decide
  rw [hzeros, zeros, List.drop_replicate, List.take_replicate, min_eq_left h, zeros]

theorem inv_sendFinal (hs : Inv s) (hposition : s.position = .sendFinal) {sent : Nat}
    (hle : sent ≤ (offered s.connector s.position).length) :
    Inv
      { s with
        connector := (socketReturned s.connector s.position sent).1
        position := (socketReturned s.connector s.position sent).2
        accepted := s.accepted ++ (offered s.connector s.position).take sent } := by
  have hsends := hs.sends
  rw [hposition] at hsends hle ⊢
  rcases hsends with ⟨_, hno⟩ | ⟨hfinal, hcount, hsize⟩
  · exact absurd hno id
  · have hfour : (offered s.connector .sendFinal).length = 4 - s.connector.bytesCount := by
      rw [offered, hsize, List.length_drop]
      rfl
    rw [hfour] at hle
    obtain ⟨frames, hbytes⟩ := hfinal.bytes
    have hmore : s.accepted ++ (offered s.connector .sendFinal).take sent =
        s.queued.flatten ++ zeros (4 * frames + (s.connector.bytesCount + sent)) := by
      rw [offered, hsize, take_drop_zeros hle, hbytes, List.append_assoc, zeros, zeros, zeros,
        List.replicate_append_replicate, Nat.add_assoc]
    rw [socketReturned, if_neg (Nat.not_lt_zero _), count_eq (by omega), hmore]
    dsimp only
    split_ifs with hopen
    · exact ⟨hs.queue, hs.message_lt, Or.inr ⟨⟨hfinal.ended, hfinal.message, hopen.le, frames,
        rfl⟩, hopen, hsize⟩⟩
    · have hdone : s.connector.bytesCount + sent = 4 := by omega
      exact ⟨hs.queue, hs.message_lt, Or.inr ⟨⟨hfinal.ended, hfinal.message, hdone.le, frames,
        rfl⟩, hdone⟩⟩

theorem inv_step {a : Action} (hs : Inv s) (h : step s a = some s') : Inv s' := by
  cases a with
  | add src size readable => exact inv_add hs h
  | signal producerId => exact inv_signal hs h
  | send =>
      rw [step] at h
      split at h
      · rename_i value hposition
        obtain rfl := Option.some.inj h
        exact inv_load hs hposition rfl
      · cases h
  | check =>
      rw [step] at h
      split at h
      · rename_i hposition
        obtain rfl := Option.some.inj h
        exact inv_check hs hposition rfl
      · cases h
  | socket sent =>
      rw [step] at h
      split_ifs at h with hcalls hle
      obtain rfl := Option.some.inj h
      rcases hcalls with hposition | hposition
      · exact inv_sendMessage hs hposition hle
      · exact inv_sendFinal hs hposition hle

end FastDCS.PartialWrites
