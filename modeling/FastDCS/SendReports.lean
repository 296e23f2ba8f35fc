import FastDCS.Sockets
import FastDCS.OrderedMap
import FastDCS.Runs

/-!
What the value of `SendProtocol` says. A call of it may wait in `Add`, and other
threads use the queues, the events and the map of addresses in between.
-/

namespace FastDCS.SendReports

open FastDCS.Strings
open FastDCS.Messages
open FastDCS.QueueCalls
open FastDCS.Runs
open FastDCS.Tracker

/-- A queue as `AddSocketResource` makes it and its users leave it. -/
@[ext] structure SendBuffer where
  queue : SignalingQueue
  consistent : queue.Consistent

/-- What `SendProtocol` reads and writes of a node. -/
@[ext] structure Sends where
  sendBuffers : OrderedMap Int SendBuffer
  socketSendEvents : List Int := []
  socketIds : OrderedMap Int Str := .empty

/-- Where a call is: in the loop of `Add`, between `Add` and the pushing of the
event, or at its end. -/
inductive Phase where
  | adding
  | added
  | returned (result : Bool)
deriving DecidableEq

/-- A call under way. `changes` are the states before and after each step of its
own that writes something. -/
structure Sending where
  sends : Sends
  phase : Phase
  changes : List (Sends × Sends) := []

/-- The call goes on, or other threads have left the maps in another state. -/
inductive Move where
  | proceed
  | others (sends : Sends)

/-- `Add` behind its checks, or `none` while it waits for room. -/
def SendBuffer.addLoop (buffer : SendBuffer) (src : Str) : Option SendBuffer :=
  if h : toInt32 src.length > buffer.queue.freeSize then none
  else
    some
      { queue := buffer.queue.store (src.take (toInt32 src.length).toNat)
        consistent := by
          refine SignalingQueue.consistent_store buffer.consistent ?_
          rw [List.length_take]
          omega }

namespace Sends

def setBuffer (s : Sends) (receiverFd : Int) (buffer : SendBuffer) : Sends :=
  { s with sendBuffers := s.sendBuffers.set receiverFd buffer }

def pushSendEvent (s : Sends) (receiverFd : Int) : Sends :=
  { s with socketSendEvents := s.socketSendEvents ++ [receiverFd] }

/-- The message of the log reads `socket_ids_[receiver_fd]`, which makes an empty
entry where there is none. -/
def logNotFound (s : Sends) (receiverFd : Int) : Sends :=
  { s with socketIds := s.socketIds.insert receiverFd [] }

end Sends

/-- `SendProtocol` with the bytes of its message, up to the loop of `Add`. -/
def sendProtocol (s : Sends) (receiverFd : Int) (protoBuff : Str) : Sending :=
  match s.sendBuffers.find? receiverFd with
  | some buffer =>
      -- the value of `Add` is not looked at
      if buffer.queue.rejects (toInt32 protoBuff.length) then { sends := s, phase := .added }
      else { sends := s, phase := .adding }
  | none =>
      { sends := s.logNotFound receiverFd
        phase := .returned false
        changes := [(s, s.logNotFound receiverFd)] }

/-- The next step of the call itself. -/
def proceed (receiverFd : Int) (protoBuff : Str) (t : Sending) : Option Sending :=
  match t.phase with
  | .adding =>
      (t.sends.sendBuffers.find? receiverFd).bind fun buffer =>
        (buffer.addLoop protoBuff).map fun buffer' =>
          { sends := t.sends.setBuffer receiverFd buffer'
            phase := .added
            changes := t.changes ++ [(t.sends, t.sends.setBuffer receiverFd buffer')] }
  | .added =>
      some
        { sends := t.sends.pushSendEvent receiverFd
          phase := .returned true
          changes := t.changes ++ [(t.sends, t.sends.pushSendEvent receiverFd)] }
  | .returned _ => none

/-- Other threads do not delete the queue that the call uses. -/
def step (receiverFd : Int) (protoBuff : Str) (t : Sending) : Move → Option Sending
  | .proceed => proceed receiverFd protoBuff t
  | .others sends =>
      if (sends.sendBuffers.find? receiverFd).isSome then some { t with sends := sends } else none

/-- The messages in the queue of a descriptor. -/
def messages (s : Sends) (receiverFd : Int) : Option (List Str) :=
  (s.sendBuffers.find? receiverFd).map fun buffer => buffer.queue.contents

def Appended (receiverFd : Int) (message : Str) (changes : List (Sends × Sends)) : Prop :=
  ∃ change ∈ changes, ∃ before, messages change.1 receiverFd = some before ∧
    messages change.2 receiverFd = some (before ++ [message])

def EventQueued (receiverFd : Int) (changes : List (Sends × Sends)) : Prop :=
  ∃ change ∈ changes,
    change.2.socketSendEvents = change.1.socketSendEvents ++ [receiverFd]

/-- The value of a call tells what the call has done. -/
structure Truthful (receiverFd : Int) (message : Str) (changes : List (Sends × Sends))
    (result : Bool) : Prop where
  sent : result = true ↔ Appended receiverFd message changes ∧ EventQueued receiverFd changes
  unchanged : result = false → ∀ change ∈ changes, change.2 = change.1

/-- The queue takes the message and an `int` its length, or there is no queue and
the descriptor has an address all the same. -/
def Reportable (s : Sends) (receiverFd : Int) (message : Str) : Prop :=
  match s.sendBuffers.find? receiverFd with
  | some buffer =>
      buffer.queue.rejects (toInt32 message.length) = false ∧
        toInt32 message.length = message.length
  | none => (s.socketIds.find? receiverFd).isSome

instance (s : Sends) (receiverFd : Int) (message : Str) :
    Decidable (Reportable s receiverFd message) :=
  match h : s.sendBuffers.find? receiverFd with
  | some buffer =>
      decidable_of_iff
        (buffer.queue.rejects (toInt32 message.length) = false ∧
          toInt32 message.length = message.length) (by rw [Reportable, h])
  | none =>
      decidable_of_iff ((s.socketIds.find? receiverFd).isSome = true) (by rw [Reportable, h])

variable {s : Sends} {receiverFd : Int} {protoBuff message : Str}

theorem messages_setBuffer (s : Sends) (receiverFd : Int) (buffer : SendBuffer) :
    messages (s.setBuffer receiverFd buffer) receiverFd = some buffer.queue.contents := by
  rw [messages, Sends.setBuffer, OrderedMap.find?_set, if_pos rfl]
  rfl

theorem messages_pushSendEvent (s : Sends) (receiverFd : Int) :
    messages (s.pushSendEvent receiverFd) receiverFd = messages s receiverFd := rfl

theorem addLoop_spec {buffer buffer' : SendBuffer} (h : buffer.addLoop protoBuff = some buffer') :
    buffer'.queue.contents =
      buffer.queue.contents ++ [protoBuff.take (toInt32 protoBuff.length).toNat] := by
  rw [SendBuffer.addLoop] at h
  split_ifs at h with hfull
  obtain rfl := Option.some.inj h
  refine SignalingQueue.contents_store buffer.consistent ?_
  rw [List.length_take]
  omega

/-- The loop adds what `Add` does behind its checks. -/
theorem addLoop_eq_addBlocking {buffer : SendBuffer}
    (h : buffer.queue.rejects (toInt32 protoBuff.length) = false) :
    (buffer.addLoop protoBuff).map SendBuffer.queue =
      Sockets.addBlocking buffer.queue protoBuff := by
  rw [SendBuffer.addLoop, Sockets.addBlocking, h, if_neg Bool.false_ne_true]
  split_ifs with hfull
  · rfl
  · rfl

/-- Room in the queue lets a waiting call go on. -/
theorem addLoop_isSome {buffer : SendBuffer}
    (h : toInt32 protoBuff.length ≤ buffer.queue.freeSize) :
    (buffer.addLoop protoBuff).isSome = true := by
  rw [SendBuffer.addLoop, dif_neg (not_lt.mpr h)]
  rfl

/-- A call comes to its end by itself where the queue has room. -/
theorem returns_of_room (hroom : ∀ buffer, s.sendBuffers.find? receiverFd = some buffer →
    toInt32 protoBuff.length ≤ buffer.queue.freeSize) :
    ∃ moves t result,
      run (step receiverFd protoBuff) (sendProtocol s receiverFd protoBuff) moves = some t ∧
        t.phase = .returned result := by
  rw [sendProtocol]
  cases hfound : s.sendBuffers.find? receiverFd with
  | none => exact ⟨[], _, false, rfl, rfl⟩
  | some buffer =>
      dsimp only
      split_ifs with hrejects
      · exact ⟨[.proceed], _, true, rfl, rfl⟩
      · obtain ⟨buffer', hadd⟩ :=
          Option.isSome_iff_exists.mp (addLoop_isSome (hroom buffer hfound))
        have hstep : step receiverFd protoBuff { sends := s, phase := .adding } .proceed = some
            { sends := s.setBuffer receiverFd buffer'
              phase := .added
              changes := [(s, s.setBuffer receiverFd buffer')] } := by
          simp only [step, proceed, hfound, hadd, Option.bind_some, Option.map_some,
            List.nil_append]
        exact ⟨[.proceed, .proceed], _, true, run_cons_eq_some.mpr ⟨_, hstep, rfl⟩, rfl⟩

/-- What `Add` writes, if the queue that the call has found takes the message. -/
inductive Adds (receiverFd : Int) (protoBuff : Str) (found : SendBuffer) :
    List (Sends × Sends) → Prop where
  | rejected (rejects : found.queue.rejects (toInt32 protoBuff.length) = true) :
      Adds receiverFd protoBuff found []
  | stored (rejects : found.queue.rejects (toInt32 protoBuff.length) = false)
      {before after : Sends} {stored : List Str}
      (hbefore : messages before receiverFd = some stored)
      (hafter : messages after receiverFd =
        some (stored ++ [protoBuff.take (toInt32 protoBuff.length).toNat]))
      (hevents : after.socketSendEvents = before.socketSendEvents) :
      Adds receiverFd protoBuff found [(before, after)]

/-- What a call that began in a state has written in each of its phases. -/
inductive Written (s : Sends) (receiverFd : Int) (protoBuff : Str) :
    Phase → List (Sends × Sends) → Prop where
  | adding {found : SendBuffer} (hfound : s.sendBuffers.find? receiverFd = some found)
      (rejects : found.queue.rejects (toInt32 protoBuff.length) = false) :
      Written s receiverFd protoBuff .adding []
  | added {found : SendBuffer} (hfound : s.sendBuffers.find? receiverFd = some found)
      {changes : List (Sends × Sends)} (hadds : Adds receiverFd protoBuff found changes) :
      Written s receiverFd protoBuff .added changes
  | sent {found : SendBuffer} (hfound : s.sendBuffers.find? receiverFd = some found)
      {changes : List (Sends × Sends)} (hadds : Adds receiverFd protoBuff found changes)
      (before : Sends) :
      Written s receiverFd protoBuff (.returned true)
        (changes ++ [(before, before.pushSendEvent receiverFd)])
  | notFound (habsent : s.sendBuffers.find? receiverFd = none) :
      Written s receiverFd protoBuff (.returned false) [(s, s.logNotFound receiverFd)]

theorem written_sendProtocol (s : Sends) (receiverFd : Int) (protoBuff : Str) :
    Written s receiverFd protoBuff (sendProtocol s receiverFd protoBuff).phase
      (sendProtocol s receiverFd protoBuff).changes := by
  rw [sendProtocol]
  cases hfound : s.sendBuffers.find? receiverFd with
  | none => exact .notFound hfound
  | some found =>
      dsimp only
      cases hrejects : found.queue.rejects (toInt32 protoBuff.length) with
      | true =>
          rw [if_pos rfl]
          exact .added hfound (.rejected hrejects)
      | false =>
          rw [if_neg Bool.false_ne_true]
          exact .adding hfound hrejects

theorem written_proceed {t t' : Sending} (ht : Written s receiverFd protoBuff t.phase t.changes)
    (h : proceed receiverFd protoBuff t = some t') :
    Written s receiverFd protoBuff t'.phase t'.changes := by
  obtain ⟨sends, phase, changes⟩ := t
  cases ht with
  | adding hfound hrejects =>
      obtain ⟨buffer, hbuffer, hmap⟩ := Option.bind_eq_some_iff.mp h
      obtain ⟨buffer', hadd, rfl⟩ := Option.map_eq_some_iff.mp hmap
      have hbefore : messages sends receiverFd = some buffer.queue.contents :=
        (congrArg (Option.map _) hbuffer).trans rfl
      refine .added hfound (.stored hrejects hbefore ?_ rfl)
      rw [messages_setBuffer, addLoop_spec hadd]
  | added hfound hadds =>
      obtain rfl := Option.some.inj h
      exact .sent hfound hadds sends
  | sent hfound hadds before => cases h
  | notFound habsent => cases h

theorem written_step {t t' : Sending} {move : Move}
    (ht : Written s receiverFd protoBuff t.phase t.changes)
    (h : step receiverFd protoBuff t move = some t') :
    Written s receiverFd protoBuff t'.phase t'.changes := by
  cases move with
  | proceed => exact written_proceed ht h
  | others sends =>
      rw [step] at h
      split_ifs at h
      obtain rfl := Option.some.inj h
      exact ht

theorem written_run {t : Sending} {moves : List Move}
    (hrun : run (step receiverFd protoBuff) (sendProtocol s receiverFd protoBuff) moves =
      some t) : Written s receiverFd protoBuff t.phase t.changes := by
  let inv : Sending → Prop := fun t => Written s receiverFd protoBuff t.phase t.changes
  have hstep : ∀ t move t', inv t → step receiverFd protoBuff t move = some t' → inv t' :=
    fun _ _ _ => written_step
  exact invariant hstep (written_sendProtocol s receiverFd protoBuff) hrun

theorem ne_append_singleton {α : Type} (xs : List α) (x : α) : xs ≠ xs ++ [x] := by
  intro h
  have hlength := congrArg List.length h
  rw [List.length_append, List.length_singleton] at hlength
  omega

theorem appended_append {first second : List (Sends × Sends)} :
    Appended receiverFd message (first ++ second) ↔
      Appended receiverFd message first ∨ Appended receiverFd message second := by
  simp only [Appended, List.mem_append, or_and_right, exists_or]

/-- To push an event appends no message. -/
theorem not_appended_pushSendEvent (before : Sends) :
    ¬Appended receiverFd message [(before, before.pushSendEvent receiverFd)] := by
  rintro ⟨change, hchange, stored, hbefore, hafter⟩
  obtain rfl := List.mem_singleton.mp hchange
  rw [messages_pushSendEvent, hbefore] at hafter
  exact ne_append_singleton stored message (Option.some.inj hafter)

/-- An `int` that is not the length of the message is smaller. -/
theorem take_eq_self_iff (hpos : 0 < toInt32 message.length) :
    message.take (toInt32 message.length).toNat = message ↔
      toInt32 message.length = message.length := by
  have hle := toInt32_le message.length
  rw [List.take_eq_self_iff]
  omega

theorem pos_of_rejects {queue : SignalingQueue} {size : Int} (h : queue.rejects size = false) :
    0 < size := by
  simp only [SignalingQueue.rejects, Bool.or_eq_false_iff, decide_eq_false_iff_not,
    not_le] at h
  exact h.1.2

theorem appended_iff_of_adds {found : SendBuffer} {changes : List (Sends × Sends)}
    (hadds : Adds receiverFd protoBuff found changes) :
    Appended receiverFd protoBuff changes ↔
      found.queue.rejects (toInt32 protoBuff.length) = false ∧
        toInt32 protoBuff.length = protoBuff.length := by
  cases hadds with
  | rejected hrejects =>
      constructor
      · rintro ⟨change, hchange, _⟩
        exact absurd hchange List.not_mem_nil
      · rintro ⟨haccepts, _⟩
        rw [hrejects] at haccepts
        cases haccepts
  | stored hrejects hbefore hafter hevents =>
      rw [← take_eq_self_iff (pos_of_rejects hrejects)]
      constructor
      · rintro ⟨change, hchange, held, hheld, hnow⟩
        obtain rfl := List.mem_singleton.mp hchange
        obtain rfl := Option.some.inj (hbefore.symm.trans hheld)
        have happended := List.append_cancel_left (Option.some.inj (hafter.symm.trans hnow))
        exact ⟨hrejects, (List.cons.inj happended).1⟩
      · rintro ⟨_, htake⟩
        rw [htake] at hafter
        exact ⟨_, List.mem_singleton_self _, _, hbefore, hafter⟩

theorem logNotFound_eq_self_iff :
    s.logNotFound receiverFd = s ↔ (s.socketIds.find? receiverFd).isSome = true := by
  constructor
  · intro h
    have hfind := congrArg (fun sends => sends.socketIds.find? receiverFd) h
    dsimp only [Sends.logNotFound] at hfind
    rw [OrderedMap.find?_insert, if_pos rfl] at hfind
    rw [← hfind]
    rfl
  · intro h
    obtain ⟨address, haddress⟩ := Option.isSome_iff_exists.mp h
    rw [Sends.logNotFound, OrderedMap.insert_of_some haddress]

/-- At its end a call tells what it has done exactly if the state at its
beginning lets it. -/
theorem truthful_iff_of_written {result : Bool} {changes : List (Sends × Sends)}
    (hwritten : Written s receiverFd message (.returned result) changes) :
    Truthful receiverFd message changes result ↔ Reportable s receiverFd message := by
  cases hwritten with
  | sent hfound hadds before =>
      rename_i found changes
      have hqueued : EventQueued receiverFd
          (changes ++ [(before, before.pushSendEvent receiverFd)]) :=
        ⟨_, List.mem_append_right _ (List.mem_singleton_self _), rfl⟩
      rw [Reportable, hfound]
      dsimp only
      rw [← appended_iff_of_adds hadds]
      constructor
      · intro htruthful
        have happended := (htruthful.sent.mp rfl).1
        exact (appended_append.mp happended).resolve_right (not_appended_pushSendEvent before)
      · intro happended
        refine ⟨?_, ?_⟩
        · exact iff_of_true rfl ⟨appended_append.mpr (Or.inl happended), hqueued⟩
        · intro hfalse
          cases hfalse
  | notFound habsent =>
      rw [Reportable, habsent, ← logNotFound_eq_self_iff]
      constructor
      · intro htruthful
        exact htruthful.unchanged rfl _ (List.mem_singleton_self _)
      · intro hsame
        refine ⟨?_, ?_⟩
        · refine iff_of_false Bool.false_ne_true ?_
          rintro ⟨⟨change, hchange, before, hbefore, _⟩, _⟩
          obtain rfl := List.mem_singleton.mp hchange
          rw [messages, habsent] at hbefore
          cases hbefore
        · intro _ change hchange
          obtain rfl := List.mem_singleton.mp hchange
          exact hsame

/-- Whatever other threads do while the call waits, its value tells whether the
whole message is in the queue and its event is queued, and a call that fails
leaves the maps alone, exactly if the queue takes the message or the descriptor
has no queue but an address. -/
theorem truthful_iff (serialize : TrackerProtocol → Str) (node : Node) (s : Sends)
    (proto : TrackerProtocol) (receiverFd : Int) (moves : List Move) {t : Sending} {result : Bool}
    (hrun : run (step receiverFd (serialize (stamped node proto)))
      (sendProtocol s receiverFd (serialize (stamped node proto))) moves = some t)
    (hreturned : t.phase = .returned result) :
    Truthful receiverFd (serialize (stamped node proto)) t.changes result ↔
      Reportable s receiverFd (serialize (stamped node proto)) := by
  have hwritten := written_run hrun
  rw [hreturned] at hwritten
  exact truthful_iff_of_written hwritten

/-- A queue of a size with the messages that are stored in it. -/
def bufferWith (queueSize : Nat) (hsize : 0 < queueSize) (held : List Str) : SendBuffer :=
  held.foldl (fun buffer message => (buffer.addLoop message).getD buffer)
    { queue := .new queueSize, consistent := SignalingQueue.consistent_new hsize }

def sendsWith (socketFd : Int) (buffer : SendBuffer) : Sends where
  sendBuffers := OrderedMap.empty.insert socketFd buffer

/-- A call that waits until the socket thread has sent the message before its
own. -/
theorem waiting_truthful_iff : ∃ t,
    run (step 5 (MessageStream.plainFormat.serialize (stamped MessageStream.worker {})))
        (sendProtocol (sendsWith 5 (bufferWith 12 (by decide) ["0123456789".toList])) 5
          (MessageStream.plainFormat.serialize (stamped MessageStream.worker {})))
        [.others (sendsWith 5 (bufferWith 12 (by decide) [])), .proceed, .proceed] = some t ∧
      (Truthful 5 (MessageStream.plainFormat.serialize (stamped MessageStream.worker {}))
          t.changes true ↔
        Reportable (sendsWith 5 (bufferWith 12 (by decide) ["0123456789".toList])) 5
          (MessageStream.plainFormat.serialize (stamped MessageStream.worker {}))) := by
  have hends : (run (step 5 (MessageStream.plainFormat.serialize
      (stamped MessageStream.worker {})))
      (sendProtocol (sendsWith 5 (bufferWith 12 (by decide) ["0123456789".toList])) 5
        (MessageStream.plainFormat.serialize (stamped MessageStream.worker {})))
      [.others (sendsWith 5 (bufferWith 12 (by decide) [])), .proceed, .proceed]).map
        Sending.phase = some (.returned true) := by
    decide +kernel
  obtain ⟨t, hrun, hphase⟩ := Option.map_eq_some_iff.mp hends
  exact ⟨t, hrun, truthful_iff _ _ _ _ _ _ hrun hphase⟩

/-- A message that is larger than the socket buffer is lost with the value
true. -/
theorem not_always_truthful :
    ¬∀ (serialize : TrackerProtocol → Str) (node : Node) (s : Sends) (proto : TrackerProtocol)
      (receiverFd : Int) (moves : List Move) (t : Sending) (result : Bool),
      run (step receiverFd (serialize (stamped node proto)))
          (sendProtocol s receiverFd (serialize (stamped node proto))) moves = some t →
        t.phase = .returned result →
          Truthful receiverFd (serialize (stamped node proto)) t.changes result := by
  intro hall
  have hends : (run (step 5 (MessageStream.plainFormat.serialize
      (stamped MessageStream.worker {})))
      (sendProtocol (sendsWith 5 (bufferWith 4 (by decide) [])) 5
        (MessageStream.plainFormat.serialize (stamped MessageStream.worker {})))
      [.proceed]).map Sending.phase = some (.returned true) := by
    decide +kernel
  obtain ⟨t, hrun, hphase⟩ := Option.map_eq_some_iff.mp hends
  have hwritten := written_run hrun
  rw [hphase] at hwritten
  have hreportable := (truthful_iff_of_written hwritten).mp
    (hall _ _ _ _ _ _ t true hrun hphase)
  exact absurd hreportable (by decide +kernel)

end FastDCS.SendReports
