import Mathlib.Data.List.Nodup
import Mathlib.Logic.Function.Basic
import FastDCS.Runs
import FastDCS.Strings

/-!
Who closes the descriptor of a connection that ends: the epoll thread, which takes
an event from `PollEventProcess` through `SocketClose` to `RemoveFromPollEvent`,
between the sockets that other threads open and delete.
-/

namespace FastDCS.DescriptorCloses

open FastDCS.Strings
open FastDCS.Runs

/-- What a number stands for in the kernel: a connection or a listening socket, the
address that `getpeername` has for it, and whether `epoll_wait` reports it. -/
structure Connection where
  id : Nat
  peer : Option Str
  listens : Bool
  watched : Bool

/-- An event that `epoll_wait` has reported: whether `EPOLLIN` or `EPOLLPRI` is set,
and whether `EPOLLRDHUP`, `EPOLLERR` or `EPOLLHUP` is. What the number stands for is
recorded. -/
structure Event where
  fd : Nat
  connection : Nat
  listens : Bool
  readable : Bool
  hangUp : Bool
  deriving DecidableEq

/-- The handling of an event: the numbers it has closed, each with the connection
that the number stood for. -/
structure Handling where
  event : Event
  closes : List (Nat × Option Nat)
  deriving DecidableEq

/-- Where the epoll thread is. `afterRead` says that `EpollReadCallback` has called
`SocketClose`, and not the close callback. -/
inductive Phase
  | idle
  | reading (h : Handling)
  | socketClose (h : Handling) (afterRead : Bool)
  | addressed (h : Handling) (afterRead : Bool) (guestAddr : Str)
  | locked (h : Handling) (afterRead : Bool)
  | removing (h : Handling)

/-- `masterSockets` has the number in the `TCPSocket` of an address, `connecting` the
sockets that `ConnectMaster` calls have and not registered, `events` what is left of
the last `epoll_wait`, and `ended` the handlings in which `SocketClose` was called. -/
structure State where
  kernel : Nat → Option Connection := fun _ => none
  opened : Nat := 0
  masterSockets : Str → Option Nat := fun _ => none
  connecting : List (Str × Nat) := []
  table : Nat → Bool := fun _ => false
  events : List Event := []
  phase : Phase := .idle
  ended : List Handling := []

namespace State

def connectionAt (s : State) (fd : Nat) : Option Nat := (s.kernel fd).map Connection.id

/-- `socket` and `accept` give a number that stands for nothing. -/
def newDescriptor (s : State) (fd : Nat) (peer : Option Str) (listens : Bool) : Option State :=
  if (s.kernel fd).isSome then none
  else
    some { s with
      kernel := Function.update s.kernel fd (some ⟨s.opened, peer, listens, false⟩)
      opened := s.opened + 1 }

def close (s : State) (fd : Nat) : State := { s with kernel := Function.update s.kernel fd none }

/-- `TCPSocket::Close`; the process ends where its check fails. -/
def tcpSocketClose (s : State) (fd : Nat) : Option State :=
  if (s.kernel fd).isSome then some (s.close fd) else none

/-- An element that is in the table is only modified, which does nothing for a
number that is not watched. -/
def addToPollEvent (s : State) (fd : Nat) : State :=
  if s.table fd then s
  else
    { s with
      table := Function.update s.table fd true
      kernel := Function.update s.kernel fd
        ((s.kernel fd).map fun c => { c with watched := true }) }

/-- `ConnectMaster` up to its `TCPSocket`. -/
def connectMaster (s : State) (address : Str) (fd : Nat) : Option State :=
  if (s.masterSockets address).isSome then some s
  else
    (s.newDescriptor fd none false).map fun t =>
      { t with connecting := t.connecting ++ [(address, fd)] }

/-- `ConnectMaster` deletes the socket it could not connect. -/
def connectFails (s : State) (index : Nat) : Option State := do
  let (_, fd) ← s.connecting[index]?
  ({ s with connecting := s.connecting.eraseIdx index }).tcpSocketClose fd

/-- The socket that another call of `ConnectMaster` has registered is deleted. -/
def deleteRegistered (s : State) (address : Str) : Option State :=
  match s.masterSockets address with
  | none => some s
  | some old => s.tcpSocketClose old

/-- `ConnectMaster` registers the socket it has connected. -/
def connected (s : State) (index : Nat) (peer : Str) : Option State := do
  let (address, fd) ← s.connecting[index]?
  let c ← s.kernel fd
  let t ← State.deleteRegistered
    { s with
      kernel := Function.update s.kernel fd (some { c with peer := some peer })
      connecting := s.connecting.eraseIdx index }
    address
  return State.addToPollEvent
    { t with masterSockets := Function.update t.masterSockets address (some fd) } fd

/-- `Master::InitialTracker` listens. -/
def listen (s : State) (address : Str) (fd : Nat) : Option State :=
  (s.newDescriptor fd none true).map fun t =>
    { t with masterSockets := Function.update t.masterSockets address (some fd) }.addToPollEvent fd

/-- `EpollAccentCallback`, which is called for the listening socket before the read
callback. -/
def accept (s : State) (fd : Nat) (peer : Str) : Option State :=
  match s.phase with
  | .reading h =>
      if h.event.listens then
        (s.newDescriptor fd (some peer) false).map fun t => t.addToPollEvent fd
      else none
  | _ => none

/-- The other end resets the connection, which has no peer from then on. -/
def reset (s : State) (fd : Nat) : State :=
  { s with
    kernel := Function.update s.kernel fd ((s.kernel fd).map fun c => { c with peer := none }) }

/-- The numbers that `epoll_wait` reports are different ones that are watched. -/
def epollWait (s : State) (events : List Event) : Option State :=
  match s.phase, s.events with
  | .idle, [] =>
      if (events.map Event.fd).Nodup ∧
          ∀ e ∈ events, ((s.kernel e.fd).any fun c =>
            c.watched && c.id == e.connection && c.listens == e.listens) = true then
        some { s with events := events }
      else none
  | _, _ => none

/-- `PollEventProcess` behind the read callback. -/
def afterReading (s : State) (h : Handling) (ending : Bool) : State :=
  if h.event.hangUp then { s with phase := .socketClose h false }
  else { s with phase := .idle, ended := if ending then s.ended ++ [h] else s.ended }

/-- `PollEventProcess` begins with the next event, unless its element is gone. -/
def dispatch (s : State) : Option State :=
  match s.phase, s.events with
  | .idle, e :: rest =>
      let s := { s with events := rest }
      if s.table e.fd then
        some (if e.readable then { s with phase := .reading ⟨e, []⟩ }
          else s.afterReading ⟨e, []⟩ false)
      else some s
  | _, _ => none

/-- The first `read` of `EpollReadCallback`, and whether it is an error. -/
def read (s : State) (fails : Bool) : Option State :=
  match s.phase with
  | .reading h =>
      some (if fails then { s with phase := .socketClose h true } else s.afterReading h false)
  | _ => none

/-- `GetSocketAddress` in `SocketClose`. The address is not initialized, and
`garbage`, where `getpeername` fails. -/
def getSocketAddress (s : State) (garbage : Str) : Option State :=
  match s.phase with
  | .socketClose h afterRead =>
      let guestAddr := ((s.kernel h.event.fd).bind Connection.peer).getD garbage
      some { s with phase := .addressed h afterRead guestAddr }
  | _ => none

/-- `SocketClose` with the mutex, to the deletion of the master's socket. -/
def deleteMaster (s : State) : Option State :=
  match s.phase with
  | .addressed h afterRead guestAddr =>
      match s.masterSockets guestAddr with
      | none => some { s with phase := .locked h afterRead }
      | some fd =>
          let h := { h with closes := h.closes ++ [(fd, s.connectionAt fd)] }
          (s.tcpSocketClose fd).map fun t => { t with
            masterSockets := Function.update t.masterSockets guestAddr none
            phase := .locked h afterRead }
  | _ => none

/-- `SocketClose` returns. What `MasterGroupChanged` connects to before are calls of
`ConnectMaster` like those of the other threads. -/
def socketClosed (s : State) : Option State :=
  match s.phase with
  | .locked h true => some (s.afterReading h true)
  | .locked h false => some { s with phase := .removing h }
  | _ => none

/-- `RemoveFromPollEvent` closes the number, whatever it stands for. -/
def removeFromPollEvent (s : State) : Option State :=
  match s.phase with
  | .removing h =>
      let fd := h.event.fd
      some { s.close fd with
        table := Function.update s.table fd false
        phase := .idle
        ended := s.ended ++ [{ h with closes := h.closes ++ [(fd, s.connectionAt fd)] }] }
  | _ => none

end State

inductive Action
  | connectMaster (address : Str) (fd : Nat)
  | connectFails (index : Nat)
  | connected (index : Nat) (peer : Str)
  | listen (address : Str) (fd : Nat)
  | accept (fd : Nat) (peer : Str)
  | reset (fd : Nat)
  | epollWait (events : List Event)
  | dispatch
  | read (fails : Bool)
  | getSocketAddress (garbage : Str)
  | deleteMaster
  | socketClosed
  | removeFromPollEvent

def step (s : State) : Action → Option State
  | .connectMaster address fd => s.connectMaster address fd
  | .connectFails index => s.connectFails index
  | .connected index peer => s.connected index peer
  | .listen address fd => s.listen address fd
  | .accept fd peer => s.accept fd peer
  | .reset fd => some (s.reset fd)
  | .epollWait events => s.epollWait events
  | .dispatch => s.dispatch
  | .read fails => s.read fails
  | .getSocketAddress garbage => s.getSocketAddress garbage
  | .deleteMaster => s.deleteMaster
  | .socketClosed => s.socketClosed
  | .removeFromPollEvent => s.removeFromPollEvent

/-- The handling has closed the number once if it stood for a connection, and has
closed no number that stood for another one. -/
structure ClosedOnce (h : Handling) : Prop where
  once : h.event.listens = false → (h.closes.map Prod.fst).count h.event.fd = 1
  own : ∀ closed ∈ h.closes, closed.2 = some h.event.connection

/-- The event that is handled, while its number is still to be closed. -/
def ahead : Phase → List Event
  | .idle => []
  | .reading h | .socketClose h _ | .addressed h _ _ | .removing h => [h.event]
  | .locked h _ => if h.event.hangUp then [h.event] else []

namespace State

/-- The events whose numbers the epoll thread may still close. -/
def unclosed (s : State) : List Event := ahead s.phase ++ s.events

/-- `SocketClose` finds no socket of a master where `RemoveFromPollEvent` comes behind
it, and that of the connection after a read error alone; the listening socket, whose
reads are errors, may have none. No call of `ConnectMaster` closes a number that the
epoll thread has an event for. -/
def Permits (s : State) : Action → Prop
  | .connectFails index => ∀ p ∈ s.connecting[index]?, p.2 ∉ s.unclosed.map Event.fd
  | .connected index _ => ∀ p ∈ s.connecting[index]?, ∀ old ∈ s.masterSockets p.1,
      old ∉ s.unclosed.map Event.fd
  | .deleteMaster =>
      match s.phase with
      | .addressed h _ guestAddr =>
          if h.event.hangUp then s.masterSockets guestAddr = none
          else
            s.masterSockets guestAddr = some h.event.fd ∨
              h.event.listens = true ∧ s.masterSockets guestAddr = none
      | _ => True
  | _ => True

end State

instance (s : State) : ∀ a, Decidable (s.Permits a)
  | .connectFails _ => inferInstanceAs (Decidable (∀ p ∈ _, _))
  | .connected _ _ => inferInstanceAs (Decidable (∀ p ∈ _, ∀ old ∈ _, _))
  | .deleteMaster =>
      match h : s.phase with
      | .addressed _ _ _ => decidable_of_iff (if _ then _ = _ else _ ∨ _) (by rw [State.Permits, h])
      | .idle | .reading _ | .socketClose _ _ | .locked _ _ | .removing _ =>
          isTrue (by rw [State.Permits, h]; trivial)
  | .connectMaster _ _ | .listen _ _ | .accept _ _ | .reset _ | .epollWait _ | .dispatch
  | .read _ | .getSocketAddress _ | .socketClosed | .removeFromPollEvent => isTrue trivial

/-- What is known of a handling at each place of the epoll thread. -/
def Shape : Phase → Prop
  | .idle => True
  | .reading h => h.closes = []
  | .socketClose h afterRead | .addressed h afterRead _ =>
      h.closes = [] ∧ (afterRead = false → h.event.hangUp = true)
  | .locked h afterRead =>
      (h.event.hangUp = true → h.closes = []) ∧ (h.event.hangUp = false → ClosedOnce h) ∧
        (afterRead = false → h.event.hangUp = true)
  | .removing h => h.closes = []

structure Sound (s : State) : Prop where
  live : ∀ e ∈ s.unclosed, s.connectionAt e.fd = some e.connection
  nodup : (s.unclosed.map Event.fd).Nodup
  shape : Shape s.phase
  ended : ∀ h ∈ s.ended, ClosedOnce h

theorem sound_initial : Sound {} where
  live _ he := absurd he List.not_mem_nil
  nodup := List.nodup_nil
  shape := trivial
  ended _ hh := absurd hh List.not_mem_nil

/-- From `s` to `t` the epoll thread has not moved, and the numbers that it has
events for stand for what they did. -/
structure Apart (s t : State) : Prop where
  events : t.events = s.events
  phase : t.phase = s.phase
  ended : t.ended = s.ended
  same : ∀ e ∈ s.unclosed, t.connectionAt e.fd = s.connectionAt e.fd

variable {s t u : State} {fd old : Nat} {peer : Option Str} {listens : Bool} {address : Str}

theorem Apart.unclosed (h : Apart s t) : t.unclosed = s.unclosed := by
  rw [State.unclosed, State.unclosed, h.phase, h.events]

theorem Apart.trans (hst : Apart s t) (htu : Apart t u) : Apart s u where
  events := htu.events.trans hst.events
  phase := htu.phase.trans hst.phase
  ended := htu.ended.trans hst.ended
  same e he := (htu.same e (by rw [hst.unclosed]; exact he)).trans (hst.same e he)

theorem Apart.sound (h : Apart s t) (hs : Sound s) : Sound t where
  live e he := by
    rw [h.unclosed] at he
    rw [h.same e he]
    exact hs.live e he
  nodup := by
    rw [h.unclosed]
    exact hs.nodup
  shape := by
    rw [h.phase]
    exact hs.shape
  ended := by
    rw [h.ended]
    exact hs.ended

theorem apart_newDescriptor (hs : Sound s) (h : s.newDescriptor fd peer listens = some t) :
    Apart s t := by
  rw [State.newDescriptor] at h
  split_ifs at h with hfree
  obtain rfl := Option.some.inj h
  refine ⟨rfl, rfl, rfl, fun e he => ?_⟩
  have hne : e.fd ≠ fd := by
    rintro rfl
    have hlive := hs.live e he
    rw [State.connectionAt, Option.map_eq_some_iff] at hlive
    obtain ⟨c, hc, -⟩ := hlive
    rw [hc] at hfree
    exact hfree rfl
  rw [State.connectionAt, State.connectionAt]
  dsimp only
  rw [Function.update_of_ne hne]

/-- What changes a connection keeps its number. -/
theorem connectionAt_update {f : Connection → Connection} (hf : ∀ c, (f c).id = c.id)
    (fd other : Nat) :
    (Function.update s.kernel fd ((s.kernel fd).map f) other).map Connection.id =
      s.connectionAt other := by
  rw [State.connectionAt, Function.update_apply]
  split_ifs with heq
  · rw [heq, Option.map_map]
    exact congrArg (fun g => (s.kernel fd).map g) (funext hf)
  · rfl

theorem apart_addToPollEvent (s : State) (fd : Nat) : Apart s (s.addToPollEvent fd) := by
  rw [State.addToPollEvent]
  split_ifs
  · exact ⟨rfl, rfl, rfl, fun _ _ => rfl⟩
  · have hwatch : ∀ c : Connection, ({ c with watched := true } : Connection).id = c.id :=
      fun _ => rfl
    exact ⟨rfl, rfl, rfl, fun e _ => connectionAt_update hwatch fd e.fd⟩

theorem apart_close (hfd : fd ∉ s.unclosed.map Event.fd) : Apart s (s.close fd) := by
  refine ⟨rfl, rfl, rfl, fun e he => ?_⟩
  have hne : e.fd ≠ fd := by
    rintro rfl
    exact hfd (List.mem_map_of_mem he)
  rw [State.connectionAt, State.connectionAt, State.close]
  dsimp only
  rw [Function.update_of_ne hne]

theorem tcpSocketClose_eq_some (h : s.tcpSocketClose fd = some t) : t = s.close fd := by
  rw [State.tcpSocketClose] at h
  split_ifs at h
  exact (Option.some.inj h).symm

theorem apart_connectMaster (hs : Sound s) (h : s.connectMaster address fd = some t) :
    Apart s t := by
  rw [State.connectMaster] at h
  split_ifs at h
  · obtain rfl := Option.some.inj h
    exact ⟨rfl, rfl, rfl, fun _ _ => rfl⟩
  · obtain ⟨u, hu, rfl⟩ := Option.map_eq_some_iff.mp h
    exact (apart_newDescriptor hs hu).trans ⟨rfl, rfl, rfl, fun _ _ => rfl⟩

theorem apart_listen (hs : Sound s) (h : s.listen address fd = some t) : Apart s t := by
  obtain ⟨u, hu, rfl⟩ := Option.map_eq_some_iff.mp h
  have hregister : Apart u
      { u with masterSockets := Function.update u.masterSockets address (some fd) } :=
    ⟨rfl, rfl, rfl, fun _ _ => rfl⟩
  exact ((apart_newDescriptor hs hu).trans hregister).trans (apart_addToPollEvent _ fd)

theorem apart_accept (hs : Sound s) (h : s.accept fd address = some t) : Apart s t := by
  rw [State.accept] at h
  split at h
  · split_ifs at h
    obtain ⟨u, hu, rfl⟩ := Option.map_eq_some_iff.mp h
    exact (apart_newDescriptor hs hu).trans (apart_addToPollEvent _ fd)
  · cases h

theorem apart_connectFails {index : Nat} (hpermits : s.Permits (.connectFails index))
    (h : s.connectFails index = some t) : Apart s t := by
  rw [State.connectFails, Option.bind_eq_bind, Option.bind_eq_some_iff] at h
  obtain ⟨⟨a, fd⟩, hp, hclose⟩ := h
  rw [tcpSocketClose_eq_some hclose]
  have herase : Apart s { s with connecting := s.connecting.eraseIdx index } :=
    ⟨rfl, rfl, rfl, fun _ _ => rfl⟩
  exact herase.trans (apart_close (by rw [herase.unclosed]; exact hpermits _ hp))

theorem apart_connected {index : Nat} (hpermits : s.Permits (.connected index address))
    (h : s.connected index address = some t) : Apart s t := by
  rw [State.connected, Option.bind_eq_bind, Option.bind_eq_some_iff] at h
  obtain ⟨⟨a, fd⟩, hp, h⟩ := h
  rw [Option.bind_eq_bind, Option.bind_eq_some_iff] at h
  obtain ⟨c, hc, h⟩ := h
  rw [Option.bind_eq_bind, Option.bind_eq_some_iff] at h
  obtain ⟨v, hv, h⟩ := h
  obtain rfl := Option.some.inj h
  have hpeer : Apart s
      { s with
        kernel := Function.update s.kernel fd (some { c with peer := some address })
        connecting := s.connecting.eraseIdx index } := by
    refine ⟨rfl, rfl, rfl, fun e _ => ?_⟩
    have hkept : ∀ c : Connection, ({ c with peer := some address } : Connection).id = c.id :=
      fun _ => rfl
    have hupdate := connectionAt_update (s := s) hkept fd e.fd
    rw [hc] at hupdate
    exact hupdate
  have hdelete : Apart s v := by
    rw [State.deleteRegistered] at hv
    dsimp only at hv
    cases hold : s.masterSockets a with
    | none =>
        rw [hold] at hv
        obtain rfl := Option.some.inj hv
        exact hpeer
    | some old =>
        rw [hold] at hv
        rw [tcpSocketClose_eq_some hv]
        exact hpeer.trans (apart_close (by
          rw [hpeer.unclosed]
          exact hpermits _ hp old hold))
  have hregister : Apart v
      { v with masterSockets := Function.update v.masterSockets a (some fd) } :=
    ⟨rfl, rfl, rfl, fun _ _ => rfl⟩
  exact (hdelete.trans hregister).trans (apart_addToPollEvent _ fd)

/-- The epoll thread goes on with the same number to close, or with none. -/
theorem Sound.move (hs : Sound s) (phase : Phase) {ended : List Handling}
    (hahead : (ahead phase).Sublist (ahead s.phase)) (hshape : Shape phase)
    (hended : ∀ h ∈ ended, h ∈ s.ended ∨ ClosedOnce h) :
    Sound { s with phase := phase, ended := ended } where
  live e he := hs.live e ((hahead.append_right s.events).subset he)
  nodup := hs.nodup.sublist ((hahead.append_right s.events).map Event.fd)
  shape := hshape
  ended h hh := (hended h hh).elim (hs.ended h) id

theorem closedOnce_singleton {e : Event} : ClosedOnce ⟨e, [(e.fd, some e.connection)]⟩ where
  once _ := by simp
  own closed hclosed := by
    rw [List.mem_singleton.mp hclosed]

theorem Sound.afterReading (hs : Sound s) {h : Handling} {ending : Bool}
    (hahead : ahead s.phase = if h.event.hangUp then [h.event] else ahead s.phase)
    (hcloses : h.event.hangUp = true → h.closes = [])
    (hending : ending = true → h.event.hangUp = false → ClosedOnce h) :
    Sound (s.afterReading h ending) := by
  rw [State.afterReading]
  split_ifs with hhangUp hyes
  · refine hs.move (.socketClose h false) ?_ ⟨hcloses hhangUp, fun _ => hhangUp⟩
      fun _ hold => .inl hold
    rw [hahead, if_pos hhangUp]
    exact List.Sublist.refl _
  · refine hs.move .idle (List.nil_sublist _) trivial fun g hg => ?_
    rcases List.mem_append.mp hg with hold | hnew
    · exact .inl hold
    · rw [List.mem_singleton.mp hnew]
      exact .inr (hending hyes (Bool.eq_false_iff.mpr hhangUp))
  · exact hs.move .idle (List.nil_sublist _) trivial fun _ hold => .inl hold

theorem sound_epollWait {events : List Event} (hs : Sound s)
    (h : s.epollWait events = some t) : Sound t := by
  rw [State.epollWait] at h
  split at h
  · rename_i hidle hnone
    split_ifs at h with hevents
    obtain rfl := Option.some.inj h
    have hunclosed : ({ s with events := events } : State).unclosed = events := by
      rw [State.unclosed]
      dsimp only
      rw [hidle]
      rfl
    refine ⟨fun e he => ?_, ?_, hs.shape, hs.ended⟩
    · rw [hunclosed] at he
      obtain ⟨c, hc, hwatched⟩ := (Option.any_eq_true _ _).mp (hevents.2 e he)
      rw [Bool.and_eq_true, Bool.and_eq_true, beq_iff_eq] at hwatched
      exact Option.map_eq_some_iff.mpr ⟨c, hc, hwatched.1.2⟩
    · rw [hunclosed]
      exact hevents.1
  · cases h

theorem sound_dispatch (hs : Sound s) (h : s.dispatch = some t) : Sound t := by
  rw [State.dispatch] at h
  split at h
  · rename_i e rest hidle hevents
    have hunclosed : s.unclosed = e :: rest := by
      rw [State.unclosed, hidle, hevents]
      rfl
    have hlive := hs.live
    have hnodup := hs.nodup
    rw [hunclosed] at hlive hnodup
    -- The event is taken over by the epoll thread, so that nothing is lost on the way.
    have htaken : ∀ phase, ahead phase = [e] → Shape phase →
        Sound { s with events := rest, phase := phase } := by
      intro phase hahead hshape
      have hsame : ({ s with events := rest, phase := phase } : State).unclosed = e :: rest := by
        rw [State.unclosed, hahead]
        rfl
      exact ⟨by rw [hsame]; exact hlive, by rw [hsame]; exact hnodup, hshape, hs.ended⟩
    have hdropped : Sound { s with events := rest, phase := .idle } :=
      (htaken (.reading ⟨e, []⟩) rfl rfl).move .idle (List.nil_sublist _) trivial
        fun _ hold => .inl hold
    have hidleSame : ({ s with events := rest } : State) =
        { s with events := rest, phase := .idle } := by
      rw [← hidle]
    dsimp only at h
    split_ifs at h with htable hreadable
    · obtain rfl := Option.some.inj h
      exact htaken (.reading ⟨e, []⟩) rfl rfl
    · obtain rfl := Option.some.inj h
      rw [State.afterReading]
      by_cases hhangUp : e.hangUp = true
      · rw [if_pos hhangUp]
        exact htaken (.socketClose ⟨e, []⟩ false) rfl ⟨rfl, fun _ => hhangUp⟩
      · rw [if_neg hhangUp]
        exact hdropped
    · obtain rfl := Option.some.inj h
      rw [hidleSame]
      exact hdropped
  · cases h

theorem sound_read {fails : Bool} (hs : Sound s) (h : s.read fails = some t) : Sound t := by
  rw [State.read] at h
  split at h
  · rename_i g hreading
    have hcloses : g.closes = [] := by
      have hshape := hs.shape
      rw [hreading] at hshape
      exact hshape
    obtain rfl := Option.some.inj h
    split_ifs
    · refine hs.move (.socketClose g true) ?_ ⟨hcloses, fun h => by cases h⟩
        fun _ hold => .inl hold
      rw [hreading]
      exact List.Sublist.refl _
    · refine hs.afterReading ?_ (fun _ => hcloses) (fun h => by cases h)
      rw [hreading]
      exact (ite_self _).symm
  · cases h

theorem sound_getSocketAddress {garbage : Str} (hs : Sound s)
    (h : s.getSocketAddress garbage = some t) : Sound t := by
  rw [State.getSocketAddress] at h
  split at h
  · rename_i g afterRead hcalled
    have hshape := hs.shape
    rw [hcalled] at hshape
    obtain rfl := Option.some.inj h
    refine hs.move (.addressed g afterRead _) ?_ hshape fun _ hold => .inl hold
    rw [hcalled]
    exact List.Sublist.refl _
  · cases h

/-- Closing the number of the event that is handled leaves those of the others. -/
theorem Sound.closed (hs : Sound s) {h : Handling} (hahead : ahead s.phase = [h.event])
    {masterSockets : Str → Option Nat} {table : Nat → Bool} {phase : Phase}
    {ended : List Handling} (hnone : ahead phase = []) (hshape : Shape phase)
    (hended : ∀ g ∈ ended, g ∈ s.ended ∨ ClosedOnce g) :
    Sound
      { s.close h.event.fd with
        masterSockets := masterSockets
        table := table
        phase := phase
        ended := ended } := by
  have hunclosed : s.unclosed = h.event :: s.events := by
    rw [State.unclosed, hahead]
    rfl
  have hnodup := hs.nodup
  rw [hunclosed, List.map_cons, List.nodup_cons] at hnodup
  have hrest : ahead phase ++ s.events = s.events := by rw [hnone, List.nil_append]
  refine ⟨fun e he => ?_, ?_, hshape, fun g hg => (hended g hg).elim (hs.ended g) id⟩
  · replace he : e ∈ ahead phase ++ s.events := he
    rw [hrest] at he
    have hne : e.fd ≠ h.event.fd := by
      intro heq
      exact hnodup.1 (heq ▸ List.mem_map_of_mem he)
    rw [← hs.live e (by rw [hunclosed]; exact List.mem_cons_of_mem _ he)]
    rw [State.connectionAt, State.connectionAt, State.close]
    dsimp only
    rw [Function.update_of_ne hne]
  · show ((ahead phase ++ s.events).map Event.fd).Nodup
    rw [hrest]
    exact hnodup.2

theorem sound_deleteMaster (hs : Sound s) (hpermits : s.Permits .deleteMaster)
    (h : s.deleteMaster = some t) : Sound t := by
  rw [State.deleteMaster] at h
  rw [State.Permits] at hpermits
  cases hphase : s.phase with
  | addressed g afterRead guestAddr =>
      have hshape := hs.shape
      have hahead : ahead s.phase = [g.event] := by
        rw [hphase]
        rfl
      rw [hphase] at h hpermits hshape
      dsimp only at h hpermits
      by_cases hhangUp : g.event.hangUp = true
      · rw [if_pos hhangUp] at hpermits
        rw [hpermits] at h
        obtain rfl := Option.some.inj h
        refine hs.move (.locked g afterRead) ?_ ⟨fun _ => hshape.1, ?_, hshape.2⟩
          fun _ hold => .inl hold
        · rw [hahead, ahead, if_pos hhangUp]
        · exact fun hno => absurd hhangUp (Bool.eq_false_iff.mp hno)
      · rw [if_neg hhangUp] at hpermits
        have hnone : ahead (.locked g afterRead) = [] := by rw [ahead, if_neg hhangUp]
        rcases hpermits with hown | ⟨hlistens, hunregistered⟩
        · rw [hown] at h
          obtain ⟨u, hu, rfl⟩ := Option.map_eq_some_iff.mp h
          rw [tcpSocketClose_eq_some hu]
          refine hs.closed hahead ?_ ⟨fun hyes => absurd hyes hhangUp, fun _ => ?_, hshape.2⟩
            fun _ hold => .inl hold
          · rw [ahead, if_neg hhangUp]
          · rw [hshape.1, hs.live g.event (by
              rw [State.unclosed, hahead]
              exact List.mem_cons_self)]
            exact closedOnce_singleton
        · rw [hunregistered] at h
          obtain rfl := Option.some.inj h
          refine hs.move (.locked g afterRead) ?_ ⟨fun _ => hshape.1, fun _ => ?_, hshape.2⟩
            fun _ hold => .inl hold
          · rw [hnone]
            exact List.nil_sublist _
          · refine ⟨fun hno => ?_, fun closed hclosed => ?_⟩
            · rw [hlistens] at hno
              cases hno
            · rw [hshape.1] at hclosed
              cases hclosed
  | idle | reading _ | socketClose _ _ | locked _ _ | removing _ =>
      rw [hphase] at h
      cases h

theorem sound_socketClosed (hs : Sound s) (h : s.socketClosed = some t) : Sound t := by
  rw [State.socketClosed] at h
  have hshape := hs.shape
  split at h
  · rename_i g hlocked
    rw [hlocked] at hshape
    obtain rfl := Option.some.inj h
    refine hs.afterReading ?_ hshape.1 fun _ hhangUp => hshape.2.1 hhangUp
    rw [hlocked, ahead]
    split_ifs <;> rfl
  · rename_i g hlocked
    rw [hlocked] at hshape
    obtain rfl := Option.some.inj h
    have hhangUp := hshape.2.2 rfl
    refine hs.move (.removing g) ?_ (hshape.1 hhangUp) fun _ hold => .inl hold
    rw [hlocked, ahead, ahead, if_pos hhangUp]
  · cases h

theorem sound_removeFromPollEvent (hs : Sound s) (h : s.removeFromPollEvent = some t) :
    Sound t := by
  rw [State.removeFromPollEvent] at h
  split at h
  · rename_i g hremoving
    have hahead : ahead s.phase = [g.event] := by
      rw [hremoving]
      rfl
    have hcloses : g.closes = [] := by
      have hshape := hs.shape
      rw [hremoving] at hshape
      exact hshape
    obtain rfl := Option.some.inj h
    refine hs.closed hahead rfl trivial fun k hk => ?_
    rcases List.mem_append.mp hk with hold | hnew
    · exact .inl hold
    · rw [List.mem_singleton.mp hnew, hcloses, hs.live g.event (by
        rw [State.unclosed, hahead]
        exact List.mem_cons_self)]
      exact .inr closedOnce_singleton
  · cases h

theorem sound_step (hs : Sound s) {a : Action} (hpermits : s.Permits a)
    (h : step s a = some t) : Sound t := by
  cases a with
  | connectMaster address fd => exact (apart_connectMaster hs h).sound hs
  | connectFails index => exact (apart_connectFails hpermits h).sound hs
  | connected index peer => exact (apart_connected hpermits h).sound hs
  | listen address fd => exact (apart_listen hs h).sound hs
  | accept fd peer => exact (apart_accept hs h).sound hs
  | reset fd =>
      obtain rfl := Option.some.inj h
      have hreset : ∀ c : Connection, ({ c with peer := none } : Connection).id = c.id :=
        fun _ => rfl
      have hapart : Apart s (s.reset fd) :=
        ⟨rfl, rfl, rfl, fun e _ => connectionAt_update hreset fd e.fd⟩
      exact hapart.sound hs
  | epollWait events => exact sound_epollWait hs h
  | dispatch => exact sound_dispatch hs h
  | read fails => exact sound_read hs h
  | getSocketAddress garbage => exact sound_getSocketAddress hs h
  | deleteMaster => exact sound_deleteMaster hs hpermits h
  | socketClosed => exact sound_socketClosed hs h
  | removeFromPollEvent => exact sound_removeFromPollEvent hs h

/-- In a run whose steps are all permitted, every handling of the end of a connection
has closed its number once, and no other connection's. -/
theorem closedOnce_of_permitted {as : List Action} (hrun : run step {} as = some t)
    (hpermitted : Along step State.Permits {} as) : ∀ h ∈ t.ended, ClosedOnce h :=
  (invariant_along (fun _ _ _ hs hpermits h => sound_step hs hpermits h) sound_initial hpermitted
    hrun).ended

/-- A worker is accepted and hangs up, and the connection to a master has a read
error. -/
def permittedRun : List Action :=
  [.listen "s".toList 4, .connectMaster "m".toList 6, .connected 0 "m".toList,
    .epollWait [⟨4, 0, true, true, false⟩], .dispatch, .accept 5 "w".toList, .read true,
    .getSocketAddress [], .deleteMaster, .socketClosed,
    .epollWait [⟨5, 2, false, true, true⟩, ⟨6, 1, false, true, false⟩],
    .dispatch, .read false, .getSocketAddress [], .deleteMaster, .connectMaster "n".toList 7,
    .socketClosed, .removeFromPollEvent,
    .dispatch, .read true, .connectFails 0, .getSocketAddress [], .deleteMaster, .socketClosed]

theorem permittedRun_closedOnce :
    ∃ t, run step {} permittedRun = some t ∧ t.ended.length = 3 ∧ ∀ h ∈ t.ended, ClosedOnce h :=
  ⟨_, rfl, rfl, closedOnce_of_permitted (rfl : run step {} permittedRun = some _) (by decide)⟩

/-- The other master hangs up, and another thread gets its number after the socket
is deleted. -/
def hangUpRun : List Action :=
  [.connectMaster "m".toList 5, .connected 0 "m".toList,
    .epollWait [⟨5, 0, false, false, true⟩], .dispatch, .getSocketAddress [], .deleteMaster,
    .socketClosed, .connectMaster "n".toList 5, .removeFromPollEvent]

theorem not_every_run_closedOnce :
    ¬ ∀ as t, run step {} as = some t → ∀ h ∈ t.ended, ClosedOnce h := by
  intro hall
  have honce := hall hangUpRun _ rfl ⟨⟨5, 0, false, false, true⟩, [(5, some 0), (5, some 1)]⟩
    (List.mem_singleton.mpr rfl)
  exact absurd (honce.once rfl) (by decide)

end FastDCS.DescriptorCloses
