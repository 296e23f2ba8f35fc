import Mathlib.Logic.Function.Basic
import FastDCS.MessageStream
import FastDCS.QueueCalls

/-!
The buffers a node keeps for its sockets, and the threads that use them: the
callbacks of the epoll thread, the calls of `SendProtocol` and `SocketThread`,
which holds `mutex_socket_` from the taking of the events to their end.
-/

namespace FastDCS.Sockets

open FastDCS.Strings
open FastDCS.QueueCalls
open FastDCS.MessageStream (Connector)

universe u

/-- What a map to pointers has for a key. -/
inductive Entry (β : Type u) where
  | absent
  | null
  | live (object : β)

namespace Entry

variable {β : Type u}

def isAbsent : Entry β → Bool
  | absent => true
  | _ => false

/-- What holds of the object, if there is one. -/
def Forall (P : β → Prop) : Entry β → Prop
  | live object => P object
  | _ => True

instance (P : β → Prop) [DecidablePred P] : ∀ e : Entry β, Decidable (e.Forall P)
  | absent => isTrue trivial
  | null => isTrue trivial
  | live object => inferInstanceAs (Decidable (P object))

/-- A number that belongs to the object, 0 where there is none. -/
def measure (f : β → Nat) : Entry β → Nat
  | live object => f object
  | _ => 0

end Entry

/-- A queue of a socket. The number of the connection it was created for is
recorded. -/
structure Buffer where
  queue : SignalingQueue
  connection : Nat

/-- The maps of a node and its event queues. `iteration` are the events that the
socket thread has taken and not handled, while it holds the mutex; `sending` are
the descriptors of the calls of `SendProtocol` between `Add` and the pushing of
the event, and whether the socket thread made the call; `wedged` says that a
thread waits for a queue with the mutex held; `opened` is the descriptor and the
number of the connection for which `AddSocketResource` has just returned. -/
structure State where
  receiveBuffers : Int → Entry Buffer := fun _ => .absent
  sendBuffers : Int → Entry Buffer := fun _ => .absent
  sendConnects : Int → Entry Connector := fun _ => .absent
  socketReceiveEvents : List Int := []
  socketSendEvents : List Int := []
  iteration : Option (List Int × List Int) := none
  sending : List (Int × Bool) := []
  wedged : Bool := false
  connections : Nat := 0
  opened : Option (Int × Nat) := none

inductive Action where
  | addReceiveSocketBuffer (socketFd : Int) (data : Str)
  | addSocketResource (socketFd : Int) (inSocketThread : Bool)
  | removeSocketResource (socketFd : Int)
  | sendProtocol (receiverFd : Int) (protoBuff : Str) (inSocketThread : Bool)
  | pushSendEvent (index : Nat)
  | getSocketEvent
  | handleReceive
  | handleSend (accepted : Nat)
  | endIteration

/-- `Add` of a string that waits for room; it has no result while it waits. -/
def addBlocking (queue : SignalingQueue) (src : Str) : Option SignalingQueue :=
  if queue.rejects (toInt32 src.length) then some queue
  else if toInt32 src.length > queue.freeSize then none
  else some (queue.store (src.take (toInt32 src.length).toNat))

/-- The queue takes the string, and takes it at once. -/
def Accepts (queue : SignalingQueue) (src : Str) : Prop :=
  queue.rejects (toInt32 src.length) = false ∧ toInt32 src.length ≤ queue.freeSize

instance (queue : SignalingQueue) (src : Str) : Decidable (Accepts queue src) :=
  inferInstanceAs (Decidable (_ ∧ _))

theorem addBlocking_of_accepts {queue : SignalingQueue} {src : Str} (h : Accepts queue src) :
    ∃ message, addBlocking queue src = some (queue.store message) ∧
      message.length ≤ queue.freeSize := by
  refine ⟨src.take (toInt32 src.length).toNat, ?_, ?_⟩
  · rw [addBlocking, h.1, if_neg Bool.false_ne_true, if_neg (not_lt.mpr h.2)]
  · have hfits := h.2
    rw [List.length_take]
    omega

theorem addBlocking_of_not_accepts {queue : SignalingQueue} {src : Str} (h : ¬Accepts queue src) :
    addBlocking queue src = none ∨ addBlocking queue src = some queue := by
  rw [addBlocking]
  split_ifs with hrejects hfull
  · exact Or.inr rfl
  · exact Or.inl rfl
  · exact absurd ⟨Bool.eq_false_iff.mpr hrejects, not_lt.mp hfull⟩ h

theorem wellFormed_addBlocking {queue queue' : SignalingQueue} {src : Str}
    (hq : queue.WellFormed) (h : addBlocking queue src = some queue') : queue'.WellFormed := by
  by_cases haccepts : Accepts queue src
  · obtain ⟨message, hadd, hfits⟩ := addBlocking_of_accepts haccepts
    obtain rfl := Option.some.inj (hadd.symm.trans h)
    exact (SignalingQueue.consistent_store hq.consistent hfits).wellFormed hq.producing
  · rcases addBlocking_of_not_accepts haccepts with hnone | hsame
    · rw [hnone] at h
      cases h
    · obtain rfl := Option.some.inj (hsame.symm.trans h)
      exact hq

namespace State

/-- The thread can get `mutex_socket_`, which is recursive. -/
def lockable (s : State) (inSocketThread : Bool) : Bool :=
  !s.wedged && s.iteration.isSome == inSocketThread

/-- The socket thread is not inside a call of `SendProtocol`. -/
def handling (s : State) : Bool := s.lockable true && s.sending.all fun call => !call.2

def addReceiveSocketBuffer (s : State) (socketFd : Int) (data : Str) : Option State :=
  match s.receiveBuffers socketFd with
  | .absent => some s
  | .null => none
  | .live buffer =>
      match addBlocking buffer.queue data with
      | none => some { s with wedged := true }
      | some queue =>
          some
            { s with
              receiveBuffers :=
                Function.update s.receiveBuffers socketFd (.live { buffer with queue := queue })
              socketReceiveEvents := s.socketReceiveEvents ++ [socketFd] }

def addSocketResource (socketBuffSize : Nat) (s : State) (socketFd : Int) : State :=
  let buffer : Entry Buffer :=
    .live { queue := .new socketBuffSize, connection := s.connections }
  { s with
    connections := s.connections + 1
    opened := some (socketFd, s.connections)
    sendBuffers :=
      if (s.sendBuffers socketFd).isAbsent then Function.update s.sendBuffers socketFd buffer
      else s.sendBuffers
    sendConnects :=
      if (s.sendBuffers socketFd).isAbsent then
        Function.update s.sendConnects socketFd (.live {})
      else s.sendConnects
    receiveBuffers :=
      if (s.receiveBuffers socketFd).isAbsent then
        Function.update s.receiveBuffers socketFd buffer
      else s.receiveBuffers }

def removeSocketResource (s : State) (socketFd : Int) : State :=
  { s with
    sendBuffers := Function.update s.sendBuffers socketFd .absent
    receiveBuffers := Function.update s.receiveBuffers socketFd .absent
    sendConnects := Function.update s.sendConnects socketFd .absent }

/-- `SendProtocol` up to its `Add`. -/
def sendProtocol (s : State) (receiverFd : Int) (protoBuff : Str) (inSocketThread : Bool) :
    Option State :=
  match s.sendBuffers receiverFd with
  | .absent => some s
  | .null => none
  | .live buffer =>
      (addBlocking buffer.queue protoBuff).map fun queue =>
        { s with
          sendBuffers :=
            Function.update s.sendBuffers receiverFd (.live { buffer with queue := queue })
          sending := s.sending ++ [(receiverFd, inSocketThread)] }

/-- The socket thread at a receive event. The lookup makes a null entry where
there is none; `Remove` waits on an empty queue. -/
def handleReceive (s : State) (socketFd : Int) : State :=
  match s.receiveBuffers socketFd with
  | .live buffer =>
      match buffer.queue.remove with
      | none => { s with wedged := true }
      | some (_, queue) =>
          { s with
            receiveBuffers :=
              Function.update s.receiveBuffers socketFd (.live { buffer with queue := queue }) }
  | _ => { s with receiveBuffers := Function.update s.receiveBuffers socketFd .null }

/-- The socket thread at a send event, where the socket accepts so many bytes. -/
def handleSend (s : State) (socketFd : Int) (accepted : Nat) : Option State :=
  match s.sendConnects socketFd with
  | .live connector =>
      match s.sendBuffers socketFd with
      | .live buffer =>
          let (_, _, connector', queue) := connector.send buffer.queue accepted
          some
            { s with
              sendConnects := Function.update s.sendConnects socketFd (.live connector')
              sendBuffers :=
                Function.update s.sendBuffers socketFd (.live { buffer with queue := queue }) }
      | _ => none
  | _ => some { s with sendConnects := Function.update s.sendConnects socketFd .null }

end State

def act (socketBuffSize : Nat) (s : State) : Action → Option State
  | .addReceiveSocketBuffer socketFd data =>
      -- the read callback calls it with the bytes it has read, if there are any
      if s.lockable false && !data.isEmpty then s.addReceiveSocketBuffer socketFd data else none
  | .addSocketResource socketFd inSocketThread =>
      if s.lockable inSocketThread then some (s.addSocketResource socketBuffSize socketFd)
      else none
  | .removeSocketResource socketFd =>
      if s.lockable false then some (s.removeSocketResource socketFd) else none
  | .sendProtocol receiverFd protoBuff inSocketThread =>
      -- the search and the `Add` are outside the mutex
      if inSocketThread && !s.handling then none
      else s.sendProtocol receiverFd protoBuff inSocketThread
  | .pushSendEvent index =>
      match s.sending[index]? with
      | some (receiverFd, inSocketThread) =>
          if s.lockable inSocketThread then
            some
              { s with
                sending := s.sending.eraseIdx index
                socketSendEvents := s.socketSendEvents ++ [receiverFd] }
          else none
      | none => none
  | .getSocketEvent =>
      if s.lockable false && !(s.socketReceiveEvents ++ s.socketSendEvents).isEmpty then
        some
          { s with
            socketReceiveEvents := []
            socketSendEvents := []
            iteration := some (s.socketReceiveEvents, s.socketSendEvents) }
      else none
  | .handleReceive =>
      match s.iteration with
      | some (socketFd :: queueReceive, queueSend) =>
          if s.handling then
            some ({ s with iteration := some (queueReceive, queueSend) }.handleReceive socketFd)
          else none
      | _ => none
  | .handleSend accepted =>
      match s.iteration with
      | some ([], socketFd :: queueSend) =>
          if s.handling then
            { s with iteration := some ([], queueSend) }.handleSend socketFd accepted
          else none
      | _ => none
  | .endIteration =>
      match s.iteration with
      | some ([], []) => if s.handling then some { s with iteration := none } else none
      | _ => none

/-- What an action does where it is enabled. -/
inductive Acts (socketBuffSize : Nat) (s : State) : Action → State → Prop where
  | addReceiveSocketBuffer {s' : State} {socketFd : Int} {data : Str}
      (ready : (s.lockable false && !data.isEmpty) = true)
      (adds : s.addReceiveSocketBuffer socketFd data = some s') :
      Acts socketBuffSize s (.addReceiveSocketBuffer socketFd data) s'
  | addSocketResource {socketFd : Int} {inSocketThread : Bool}
      (ready : s.lockable inSocketThread = true) :
      Acts socketBuffSize s (.addSocketResource socketFd inSocketThread)
        (s.addSocketResource socketBuffSize socketFd)
  | removeSocketResource {socketFd : Int} (ready : s.lockable false = true) :
      Acts socketBuffSize s (.removeSocketResource socketFd) (s.removeSocketResource socketFd)
  | sendProtocol {s' : State} {receiverFd : Int} {protoBuff : Str} {inSocketThread : Bool}
      (ready : ¬(inSocketThread && !s.handling) = true)
      (sends : s.sendProtocol receiverFd protoBuff inSocketThread = some s') :
      Acts socketBuffSize s (.sendProtocol receiverFd protoBuff inSocketThread) s'
  | pushSendEvent {index : Nat} {receiverFd : Int} {inSocketThread : Bool}
      (call : s.sending[index]? = some (receiverFd, inSocketThread))
      (ready : s.lockable inSocketThread = true) :
      Acts socketBuffSize s (.pushSendEvent index)
        { s with
          sending := s.sending.eraseIdx index
          socketSendEvents := s.socketSendEvents ++ [receiverFd] }
  | getSocketEvent (free : s.iteration = none) (ready : s.wedged = false) :
      Acts socketBuffSize s .getSocketEvent
        { s with
          socketReceiveEvents := []
          socketSendEvents := []
          iteration := some (s.socketReceiveEvents, s.socketSendEvents) }
  | handleReceive {socketFd : Int} {queueReceive queueSend : List Int}
      (iteration : s.iteration = some (socketFd :: queueReceive, queueSend))
      (ready : s.handling = true) :
      Acts socketBuffSize s .handleReceive
        ({ s with iteration := some (queueReceive, queueSend) }.handleReceive socketFd)
  | handleSend {s' : State} {accepted : Nat} {socketFd : Int} {queueSend : List Int}
      (iteration : s.iteration = some ([], socketFd :: queueSend)) (ready : s.handling = true)
      (sends : { s with iteration := some ([], queueSend) }.handleSend socketFd accepted =
        some s') :
      Acts socketBuffSize s (.handleSend accepted) s'
  | endIteration (iteration : s.iteration = some ([], [])) (ready : s.handling = true) :
      Acts socketBuffSize s .endIteration { s with iteration := none }

theorem act_cases {socketBuffSize : Nat} {s s' : State} {a : Action}
    (h : act socketBuffSize s a = some s') : Acts socketBuffSize s a s' := by
  cases a with
  | addReceiveSocketBuffer socketFd data =>
      rw [act] at h
      split_ifs at h with hready
      exact .addReceiveSocketBuffer hready h
  | addSocketResource socketFd inSocketThread =>
      rw [act] at h
      split_ifs at h with hready
      obtain rfl := Option.some.inj h
      exact .addSocketResource hready
  | removeSocketResource socketFd =>
      rw [act] at h
      split_ifs at h with hready
      obtain rfl := Option.some.inj h
      exact .removeSocketResource hready
  | sendProtocol receiverFd protoBuff inSocketThread =>
      rw [act] at h
      split_ifs at h with hready
      exact .sendProtocol hready h
  | pushSendEvent index =>
      rw [act] at h
      split at h
      · next receiverFd inSocketThread hcall =>
          split_ifs at h with hready
          obtain rfl := Option.some.inj h
          exact .pushSendEvent hcall hready
      · cases h
  | getSocketEvent =>
      rw [act] at h
      split_ifs at h with hevents
      obtain rfl := Option.some.inj h
      rw [Bool.and_eq_true, State.lockable, Bool.and_eq_true] at hevents
      exact .getSocketEvent (by simpa using hevents.1.2) (by simpa using hevents.1.1)
  | handleReceive =>
      rw [act] at h
      split at h
      · next socketFd queueReceive queueSend hiteration =>
          split_ifs at h with hready
          obtain rfl := Option.some.inj h
          exact .handleReceive hiteration hready
      · cases h
  | handleSend accepted =>
      rw [act] at h
      split at h
      · next socketFd queueSend hiteration =>
          split_ifs at h with hready
          exact .handleSend hiteration hready h
      · cases h
  | endIteration =>
      rw [act] at h
      split at h
      · next hiteration =>
          split_ifs at h with hready
          obtain rfl := Option.some.inj h
          exact .endIteration hiteration hready
      · cases h

def step (socketBuffSize : Nat) (s : State) (a : Action) : Option State :=
  act socketBuffSize { s with opened := none } a

end FastDCS.Sockets
