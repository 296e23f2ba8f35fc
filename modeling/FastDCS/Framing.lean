import Mathlib.Tactic.IntervalCases
import FastDCS.MessageStream
import FastDCS.QueueCalls

/-!
The two directions of `Connector` put together: the bytes that calls of `Send`
write, cut into pieces and read by calls of `Receive`.
-/

namespace FastDCS.Framing

open FastDCS.Strings
open FastDCS.MessageStream
open FastDCS.QueueCalls

/-- What `Receive` keeps between its calls. -/
structure Receiver where
  message : Str := []
  messageSize : Nat := 0
  bytesCount : Nat := 0
deriving DecidableEq

def byte (c : Char) : Nat := c.toNat % 256

def nonzero (c : Char) : Bool := byte c != 0

/-- A byte copied over the k-th byte of a number. -/
def setByte (n k : Nat) (c : Char) : Nat := n - n / 256 ^ k % 256 * 256 ^ k + byte c * 256 ^ k

/-- `memcpy` of the bytes to the k-th byte of a number and those behind it. -/
def setBytes (n : Nat) : Nat → Str → Nat
  | _, [] => n
  | k, c :: rest => setBytes (setByte n k c) (k + 1) rest

namespace Receiver

/-- One round of the loop of `Receive` up to `bytes_count_ += len`. All its numbers
are `uint32`. -/
def copy (c : Receiver) (rest : Str) : Nat × Receiver :=
  if c.bytesCount < 4 then
    let len := min (4 - c.bytesCount) rest.length
    (len, { c with messageSize := setBytes c.messageSize c.bytesCount (rest.take len) })
  else
    let len := min ((4 + c.messageSize + 2 ^ 32 - c.bytesCount) % 2 ^ 32) rest.length
    (len, { c with message := c.message ++ rest.take len })

def count (c : Receiver) (len : Nat) : Receiver :=
  { c with bytesCount := (c.bytesCount + len) % 2 ^ 32 }

/-- The loop of `Receive`. It has no result where it makes more rounds than
`fuel`, and where `Add` does not return. -/
def receiveLoop : Nat → Receiver → SignalingQueue → Str → Option (Int × Receiver × SignalingQueue)
  | _, c, queue, [] => some (1, c, queue)
  | 0, _, _, _ :: _ => none
  | fuel + 1, c, queue, b :: bs =>
      let (len, copied) := c.copy (b :: bs)
      let c' := copied.count len
      if c'.bytesCount ≥ 4 ∧ c'.message.length = c'.messageSize then
        if c'.messageSize = 0 then some (0, c', queue)
        else
          match queue.add c'.message with
          | none => none
          | some (size, queue') =>
              if size < 0 then some (-1, c', queue')
              else receiveLoop fuel {} queue' ((b :: bs).drop len)
      else receiveLoop fuel c' queue ((b :: bs).drop len)

/-- `Receive` where `recv` finds the chunk. -/
def receive (c : Receiver) (queue : SignalingQueue) (chunk : Str) :
    Option (Int × Receiver × SignalingQueue) :=
  if c.bytesCount ≥ 4 ∧ c.messageSize = 0 then some (0, c, queue)
  else receiveLoop chunk.length c queue chunk

end Receiver

/-- The receiving end after calls of `Receive`. -/
def received (c : Receiver) (queue : SignalingQueue) :
    List Str → Option (Receiver × SignalingQueue)
  | [] => some (c, queue)
  | chunk :: rest =>
      (c.receive queue chunk).bind fun (_, c', queue') => received c' queue' rest

/-- The bytes written by calls of `Send` whose socket accepts so many bytes each
time. -/
def stream (c : Connector) (queue : SignalingQueue) : List Nat → Str
  | [] => []
  | accepted :: rest =>
      let (_, sent, c', queue') := c.send queue accepted
      sent ++ stream c' queue' rest

section Decoding

/-- How many of the bytes are not zero. -/
def nonzeros (s : Str) : Nat := s.countP nonzero

theorem nonzeros_append (s t : Str) : nonzeros (s ++ t) = nonzeros s + nonzeros t :=
  List.countP_append

theorem nonzeros_take_add_drop (s : Str) (n : Nat) :
    nonzeros (s.take n) + nonzeros (s.drop n) = nonzeros s := by
  rw [← nonzeros_append, List.take_append_drop]

theorem setByte_lt {n k : Nat} (hn : n < 2 ^ 32) (hk : k < 4) (c : Char) :
    setByte n k c < 2 ^ 32 := by
  have hbyte : byte c < 256 := Nat.mod_lt _ (by decide)
  rw [setByte]
  interval_cases k
  · omega
  · omega
  · omega
  · omega

theorem setBytes_lt {n k : Nat} {bytes : Str} (hn : n < 2 ^ 32) (hk : k + bytes.length ≤ 4) :
    setBytes n k bytes < 2 ^ 32 := by
  induction bytes generalizing n k with
  | nil => exact hn
  | cons c rest ih =>
      rw [List.length_cons] at hk
      exact ih (setByte_lt hn (by omega) c) (by omega)

/-- 1 for a number other than 0. -/
def positive (n : Nat) : Nat := if n = 0 then 0 else 1

theorem positive_le_one (n : Nat) : positive n ≤ 1 := by
  rw [positive]
  split_ifs
  · exact Nat.zero_le _
  · exact le_rfl

/-- Zeros leave a zero. -/
theorem positive_setByte (n k : Nat) (c : Char) :
    positive (setByte n k c) ≤ positive n + nonzeros [c] := by
  rcases Nat.eq_zero_or_pos n with rfl | hn
  · cases hc : nonzero c with
    | true =>
        have hone : nonzeros [c] = 1 := by simp [nonzeros, hc]
        have := positive_le_one (setByte 0 k c)
        omega
    | false =>
        have hzero : byte c = 0 := by simpa [nonzero] using hc
        have hsame : setByte 0 k c = 0 := by simp [setByte, hzero]
        rw [hsame]
        exact Nat.le_add_right _ _
  · have hpositive : positive n = 1 := if_neg hn.ne'
    have := positive_le_one (setByte n k c)
    omega

theorem positive_setBytes (n k : Nat) (bytes : Str) :
    positive (setBytes n k bytes) ≤ positive n + nonzeros bytes := by
  induction bytes generalizing n k with
  | nil => exact Nat.le_add_right _ _
  | cons c rest ih =>
      have hfirst := positive_setByte n k c
      have hrest := ih (setByte n k c) (k + 1)
      have hsplit : nonzeros (c :: rest) = nonzeros [c] + nonzeros rest :=
        nonzeros_append [c] rest
      rw [setBytes]
      omega

/-- Between the rounds of the loop: the size or the message is not complete. -/
structure Reading (c : Receiver) : Prop where
  size_lt : c.messageSize < 2 ^ 32
  position : c.bytesCount < 4 ∧ c.message = [] ∨
    c.bytesCount = 4 + c.message.length ∧ c.message.length < c.messageSize

theorem reading_new : Reading {} where
  size_lt := by decide
  position := Or.inl ⟨by decide, rfl⟩

/-- What the bytes of a message and of its size have brought. -/
def progress (c : Receiver) : Nat := nonzeros c.message + positive c.messageSize

variable {c : Receiver} {rest : Str}

/-- A round copies at least one byte, and nothing comes from nothing. -/
theorem copy_spec (hc : Reading c) (hne : rest ≠ [])
    (hshort : c.message.length + rest.length < 2 ^ 31) :
    ∃ len copied, c.copy rest = (len, copied) ∧ 0 < len ∧ len ≤ rest.length ∧
      copied.message.length ≤ c.message.length + len ∧ copied.messageSize < 2 ^ 32 ∧
      ((copied.count len).bytesCount < 4 ∧ copied.message = [] ∨
        (copied.count len).bytesCount = 4 + copied.message.length ∧
          copied.message.length ≤ copied.messageSize) ∧
      progress copied ≤ progress c + nonzeros (rest.take len) := by
  have hpos : 0 < rest.length := List.length_pos_iff.mpr hne
  have hsize := hc.size_lt
  rcases hc.position with ⟨hheader, hmessage⟩ | ⟨hcount, hpart⟩
  · have hlen : (rest.take (min (4 - c.bytesCount) rest.length)).length =
        min (4 - c.bytesCount) rest.length := by
      rw [List.length_take]
      omega
    refine ⟨_, _, if_pos hheader, by omega, by omega, by dsimp only; omega,
      setBytes_lt hsize (by omega), ?_, ?_⟩
    · have hempty : c.message.length = 0 := by rw [hmessage, List.length_nil]
      dsimp only [Receiver.count]
      rcases Nat.lt_or_ge (c.bytesCount + rest.length) 4 with hshort | hfull
      · exact Or.inl ⟨by omega, hmessage⟩
      · exact Or.inr ⟨by omega, by omega⟩
    · have := positive_setBytes c.messageSize c.bytesCount
        (rest.take (min (4 - c.bytesCount) rest.length))
      simp only [progress]
      omega
  · have hleft : (4 + c.messageSize + 2 ^ 32 - c.bytesCount) % 2 ^ 32 =
        c.messageSize - c.message.length := by omega
    have hcopy : c.copy rest = (min (c.messageSize - c.message.length) rest.length,
        { c with message :=
          c.message ++ rest.take (min (c.messageSize - c.message.length) rest.length) }) := by
      rw [Receiver.copy, if_neg (by omega), hleft]
    have hlen : (rest.take (min (c.messageSize - c.message.length) rest.length)).length =
        min (c.messageSize - c.message.length) rest.length := by
      rw [List.length_take]
      omega
    refine ⟨_, _, hcopy, by omega, by omega, ?_, hsize, ?_, ?_⟩
    · dsimp only
      rw [List.length_append, hlen]
    · simp only [Receiver.count, List.length_append, hlen]
      omega
    · simp only [progress, nonzeros_append]
      omega

/-- What the messages in the queue have brought. -/
def gain (queue : SignalingQueue) : Nat :=
  nonzeros queue.contents.flatten + queue.contents.length

/-- The queue has room for the message that is being read and for so many bytes
more. -/
structure HasRoom (c : Receiver) (queue : SignalingQueue) (more : Nat) : Prop where
  wellFormed : queue.WellFormed
  size_lt : queue.queueSize < 2 ^ 31
  room : c.message.length + more ≤ queue.freeSize

theorem HasRoom.short {queue : SignalingQueue} {more : Nat} (h : HasRoom c queue more) :
    c.message.length + more < 2 ^ 31 :=
  (h.room.trans h.wellFormed.consistent.freeSize_le).trans_lt h.size_lt

theorem add_complete {queue : SignalingQueue} {more : Nat} (h : HasRoom c queue more)
    (hne : c.message ≠ []) :
    ∃ queue', queue.add c.message = some ((c.message.length : Int), queue') ∧
      HasRoom {} queue' more ∧ gain queue' = gain queue + nonzeros c.message + 1 := by
  have hroom := h.room
  have hfree : c.message.length ≤ queue.freeSize := by omega
  have hcontents := SignalingQueue.contents_store h.wellFormed.consistent hfree
  refine ⟨_, SignalingQueue.add_eq_store hne h.wellFormed hfree, ⟨?_, h.size_lt, ?_⟩, ?_⟩
  · exact (SignalingQueue.consistent_store h.wellFormed.consistent hfree).wellFormed
      h.wellFormed.producing
  · simp only [SignalingQueue.store, List.length_nil]
    omega
  · rw [gain, gain, hcontents, List.flatten_append, nonzeros_append, List.flatten_singleton,
      List.length_append, List.length_singleton]
    omega

/-- The loop comes to its end, and the messages it has put into the queue with
their sizes have no more bytes other than zero than were read. -/
theorem receiveLoop_spec {fuel more : Nat} {queue : SignalingQueue} (hc : Reading c)
    (hq : HasRoom c queue (rest.length + more)) (hfuel : rest.length ≤ fuel) :
    ∃ ret c' queue', Receiver.receiveLoop fuel c queue rest = some (ret, c', queue') ∧
      (Reading c' ∨ 4 ≤ c'.bytesCount ∧ c'.messageSize = 0) ∧ HasRoom c' queue' more ∧
      gain queue' + progress c' ≤ gain queue + progress c + nonzeros rest := by
  induction fuel generalizing c queue rest with
  | zero =>
      obtain rfl : rest = [] := List.length_eq_zero_iff.mp (Nat.le_zero.mp hfuel)
      refine ⟨1, c, queue, by rw [Receiver.receiveLoop], Or.inl hc, ?_, Nat.le_add_right _ _⟩
      simpa using hq
  | succ fuel ih =>
      cases rest with
      | nil =>
          refine ⟨1, c, queue, by rw [Receiver.receiveLoop], Or.inl hc, ?_, Nat.le_add_right _ _⟩
          simpa using hq
      | cons b bs =>
          have hshort := hq.short
          obtain ⟨len, copied, hcopy, hpos, hle, hmessage, hlt, hposition, hprogress⟩ :=
            copy_spec hc (List.cons_ne_nil b bs) (by omega)
          have hsplit := nonzeros_take_add_drop (b :: bs) len
          have hdrop : ((b :: bs).drop len).length = (b :: bs).length - len := List.length_drop
          have hroom := hq.room
          have hcounted : HasRoom (copied.count len) queue (((b :: bs).drop len).length + more) :=
            ⟨hq.wellFormed, hq.size_lt, by
              dsimp only [Receiver.count]
              omega⟩
          have hsame : progress (copied.count len) = progress copied := rfl
          rw [Receiver.receiveLoop, hcopy]
          dsimp only
          split_ifs with hcomplete hzero
          · have hended : 4 ≤ (copied.count len).bytesCount ∧ (copied.count len).messageSize = 0 :=
              ⟨hcomplete.1, hzero⟩
            refine ⟨0, _, queue, rfl, Or.inr hended,
              ⟨hq.wellFormed, hq.size_lt, ?_⟩, by omega⟩
            have := hcounted.room
            omega
          · have hne : (copied.count len).message ≠ [] := by
              intro hnil
              rw [hnil, List.length_nil] at hcomplete
              exact hzero hcomplete.2.symm
            obtain ⟨queue', hadd, hroom', hgain⟩ := add_complete hcounted hne
            obtain ⟨ret, c', last, hloop, hdone, hlast, hle'⟩ :=
              ih reading_new hroom' (by omega)
            refine ⟨ret, c', last, ?_, hdone, hlast, ?_⟩
            · rw [hadd]
              dsimp only
              rw [if_neg (by omega), hloop]
            · have hone : progress (copied.count len) =
                  nonzeros (copied.count len).message + 1 := by
                rw [progress, positive, if_neg hzero]
              have hzeroes : progress {} = 0 := rfl
              omega
          · have hreading : Reading (copied.count len) := by
              refine ⟨hlt, hposition.imp_right fun hfull => ⟨hfull.1, ?_⟩⟩
              refine Nat.lt_of_le_of_ne hfull.2 fun heq => hcomplete ⟨?_, heq⟩
              rw [hfull.1]
              exact Nat.le_add_right _ _
            obtain ⟨ret, c', last, hloop, hdone, hlast, hle'⟩ := ih hreading hcounted (by omega)
            exact ⟨ret, c', last, hloop, hdone, hlast, by omega⟩

theorem receive_spec {queue : SignalingQueue} {more : Nat}
    (hc : Reading c ∨ 4 ≤ c.bytesCount ∧ c.messageSize = 0)
    (hq : HasRoom c queue (rest.length + more)) :
    ∃ ret c' queue', c.receive queue rest = some (ret, c', queue') ∧
      (Reading c' ∨ 4 ≤ c'.bytesCount ∧ c'.messageSize = 0) ∧ HasRoom c' queue' more ∧
      gain queue' + progress c' ≤ gain queue + progress c + nonzeros rest := by
  rw [Receiver.receive]
  split_ifs with hended
  · have hroom := hq.room
    exact ⟨0, c, queue, rfl, Or.inr hended, ⟨hq.wellFormed, hq.size_lt, by omega⟩,
      Nat.le_add_right _ _⟩
  · exact receiveLoop_spec (hc.resolve_right hended) hq le_rfl

theorem received_spec {queue : SignalingQueue} {chunks : List Str}
    (hc : Reading c ∨ 4 ≤ c.bytesCount ∧ c.messageSize = 0)
    (hq : HasRoom c queue chunks.flatten.length) :
    ∃ c' queue', received c queue chunks = some (c', queue') ∧
      gain queue' ≤ gain queue + progress c + nonzeros chunks.flatten := by
  induction chunks generalizing c queue with
  | nil => exact ⟨c, queue, rfl, by omega⟩
  | cons chunk others ih =>
      rw [List.flatten_cons, List.length_append] at hq
      obtain ⟨ret, c₁, queue₁, hreceive, hc₁, hq₁, hgain₁⟩ := receive_spec hc hq
      obtain ⟨c', queue', hreceived, hgain⟩ := ih hc₁ hq₁
      refine ⟨c', queue', ?_, ?_⟩
      · rw [received, hreceive]
        exact hreceived
      · rw [List.flatten_cons, nonzeros_append]
        omega

end Decoding

section Encoding

/-- The bytes of messages that the sender has still to write. -/
def pending (c : Connector) (queue : SignalingQueue) : Str :=
  c.message.drop c.bytesCount ++ queue.contents.flatten

variable {c : Connector} {queue : SignalingQueue}

theorem load_spec (hq : queue.Consistent) :
    (c.load queue).2.Consistent ∧
      nonzeros (pending (c.load queue).1 (c.load queue).2) ≤ nonzeros (pending c queue) := by
  rw [Connector.load]
  split_ifs with hempty
  · rcases hcontents : queue.contents with _ | ⟨message, rest⟩
    · rw [SignalingQueue.removeFront_nil hcontents]
      exact ⟨hq, le_rfl⟩
    · obtain ⟨left, hremove, hleft, hrest, _⟩ := SignalingQueue.removeFront_cons hq hcontents
      rw [hremove]
      refine ⟨hleft, ?_⟩
      have hdrop := nonzeros_take_add_drop message c.bytesCount
      simp only [pending, hcontents, hrest, List.isEmpty_iff.mp hempty, List.drop_nil,
        List.flatten_cons, nonzeros_append]
      omega
  · exact ⟨hq, le_rfl⟩

/-- What is written is no longer pending, and the bytes of a final size are
zeros. -/
theorem send_spec (hq : queue.Consistent) (accepted : Nat) :
    (c.send queue accepted).2.2.2.Consistent ∧
      nonzeros (c.send queue accepted).2.1 +
          nonzeros (pending (c.send queue accepted).2.2.1 (c.send queue accepted).2.2.2) ≤
        nonzeros (pending c queue) := by
  obtain ⟨hloaded, hle⟩ := load_spec (c := c) hq
  rw [Connector.send]
  dsimp only
  split_ifs with hempty hfinal hwhole
  · have hzeros : nonzeros (List.replicate 4 (Char.ofNat 0)) = 0 := by decide
    refine ⟨hloaded, ?_⟩
    rw [hzeros, Nat.zero_add]
    refine le_trans ?_ hle
    simp only [pending, List.isEmpty_iff.mp hempty, List.drop_nil, le_refl]
  · exact ⟨hloaded, (Nat.zero_add _).trans_le hle⟩
  · refine ⟨hloaded, le_trans ?_ hle⟩
    have hsplit := nonzeros_take_add_drop (c.offered queue) accepted
    change nonzeros ((c.offered queue).take accepted) +
        nonzeros ([] ++ (c.load queue).2.contents.flatten) ≤
      nonzeros (c.offered queue ++ (c.load queue).2.contents.flatten)
    rw [List.nil_append, nonzeros_append]
    omega
  · refine ⟨hloaded, le_trans ?_ hle⟩
    have hsplit := nonzeros_take_add_drop (c.offered queue) accepted
    have hmore : (c.load queue).1.message.drop
        ((c.load queue).1.bytesCount + ((c.offered queue).take accepted).length) =
          (c.offered queue).drop accepted := by
      rw [← List.drop_drop, List.length_take]
      change (c.offered queue).drop _ = _
      rcases Nat.le_total accepted (c.offered queue).length with hpart | hall
      · rw [min_eq_left hpart]
      · rw [min_eq_right hall, List.drop_of_length_le le_rfl, List.drop_of_length_le hall]
    change nonzeros ((c.offered queue).take accepted) +
        nonzeros ((c.load queue).1.message.drop
          ((c.load queue).1.bytesCount + ((c.offered queue).take accepted).length) ++
            (c.load queue).2.contents.flatten) ≤
      nonzeros (c.offered queue ++ (c.load queue).2.contents.flatten)
    rw [hmore, nonzeros_append, nonzeros_append]
    omega

theorem nonzeros_stream (hq : queue.Consistent) (accepts : List Nat) :
    nonzeros (stream c queue accepts) ≤ nonzeros (pending c queue) := by
  induction accepts generalizing c queue with
  | nil => exact Nat.zero_le _
  | cons accepted rest ih =>
      obtain ⟨hleft, hle⟩ := send_spec (c := c) hq accepted
      have hrest := ih (c := (c.send queue accepted).2.2.1) hleft
      have hstream : stream c queue (accepted :: rest) = (c.send queue accepted).2.1 ++
          stream (c.send queue accepted).2.2.1 (c.send queue accepted).2.2.2 rest := rfl
      rw [hstream, nonzeros_append]
      omega

end Encoding

/-- Whatever is sent and however it is cut, the messages received are those sent
only if there are none. -/
theorem received_eq_sent_iff {messages : List Str} {sender receiver : SignalingQueue}
    (hsender : sender.Consistent) (hmessages : sender.contents = messages) {accepts : List Nat}
    {chunks : List Str} (hchunks : chunks.flatten = stream {} sender accepts)
    (hreceiver : receiver.WellFormed) (hnew : receiver.contents = [])
    (hsize : receiver.queueSize < 2 ^ 31)
    (hroom : (stream {} sender accepts).length ≤ receiver.freeSize) :
    ∃ c queue, received {} receiver chunks = some (c, queue) ∧
      (queue.contents = messages ↔ messages = []) := by
  have hq : HasRoom {} receiver chunks.flatten.length :=
    ⟨hreceiver, hsize, by rw [hchunks, List.length_nil, Nat.zero_add]; exact hroom⟩
  obtain ⟨c, queue, hreceived, hgain⟩ := received_spec (Or.inl reading_new) hq
  have hsent := nonzeros_stream (c := {}) hsender accepts
  have hbefore : gain receiver = 0 := by rw [gain, hnew]; rfl
  have hstart : progress {} = 0 := rfl
  have hpending : pending {} sender = messages.flatten := by rw [pending, hmessages]; rfl
  rw [hbefore, hstart, hchunks, gain] at hgain
  rw [hpending] at hsent
  refine ⟨c, queue, hreceived, fun heq => ?_, fun hnil => ?_⟩
  · rw [heq] at hgain
    exact List.length_eq_zero_iff.mp (by omega)
  · have hnothing : nonzeros messages.flatten = 0 := by rw [hnil]; rfl
    rw [hnil]
    exact List.length_eq_zero_iff.mp (by omega)

def hello : SignalingQueue := ((SignalingQueue.create 16 1).calls [addString "hello".toList]).2

theorem hello_consistent : hello.Consistent :=
  (represents_calls (represents_create (by decide) 1) _).2.consistent

theorem hello_is_not_received :
    ∃ c queue, received {} (.new 16) ["he".toList, "llo".toList] = some (c, queue) ∧
      (queue.contents = ["hello".toList] ↔ ["hello".toList] = []) := by
  have hchunks : ["he".toList, "llo".toList].flatten = stream {} hello [3, 2] := by
    decide +kernel
  exact received_eq_sent_iff hello_consistent (by decide +kernel) hchunks
    (SignalingQueue.wellFormed_new (by decide)) rfl (by decide) (by decide +kernel)

/-- The first four bytes of the message are taken for its size. -/
theorem not_every_message_is_received :
    ¬∀ (messages : List Str) (sender receiver : SignalingQueue) (accepts : List Nat)
      (chunks : List Str), (∀ message ∈ messages, message ≠ []) → sender.Consistent →
        sender.contents = messages → (∀ chunk ∈ chunks, 1 ≤ chunk.length ∧ chunk.length ≤ 4096) →
          chunks.flatten = stream {} sender accepts → messages.flatten <+: chunks.flatten →
            receiver.WellFormed → receiver.contents = [] → receiver.queueSize < 2 ^ 31 →
              (stream {} sender accepts).length ≤ receiver.freeSize →
                ∃ c queue, received {} receiver chunks = some (c, queue) ∧
                  queue.contents = messages := by
  intro hall
  obtain ⟨c, queue, hreceived, hcontents⟩ := hall ["hello".toList] hello (.new 16) [3, 2]
    ["he".toList, "llo".toList] (by decide) hello_consistent (by decide +kernel) (by decide)
    (by decide +kernel) (by decide) (SignalingQueue.wellFormed_new (by decide)) rfl (by decide)
    (by decide +kernel)
  have hnothing : (received {} (.new 16) ["he".toList, "llo".toList]).map
      (fun r => r.2.contents) = some [] := by
    decide +kernel
  rw [hreceived, Option.map_some, hcontents] at hnothing
  cases hnothing

end FastDCS.Framing
