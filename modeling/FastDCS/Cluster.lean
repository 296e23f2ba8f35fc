import Mathlib.Logic.Function.Basic
import FastDCS.Master
import FastDCS.Runs

/-!
The masters of a tracker group with a fixed set of live ones: each handles the
messages that reach it, in any order, and asks for the primary from time to
time.
-/

namespace FastDCS.Cluster

open FastDCS.Strings
open FastDCS.Messages
open FastDCS.Tracker
open FastDCS.Master

/-- A tracker group of well-formed addresses, the live masters among them and
the descriptors under which each master connects the others. -/
structure Network where
  addresses : List Str
  live : Str → Bool
  descriptor : Str → Str → Int
  distinct : addresses.Nodup
  wellFormed : ∀ a ∈ addresses, ';' ∉ a ∧ (splitStringUsing a ':').length = 2
  noSubstring : ∀ a ∈ addresses, ∀ b ∈ addresses, a <:+: b → a = b
  someLive : addresses.filter live ≠ []
  descriptor_injective : ∀ a, ∀ b ∈ addresses, ∀ c ∈ addresses,
    descriptor a b = descriptor a c → b = c
  descriptor_pos : ∀ a b, 0 < descriptor a b

namespace Network

variable (net : Network)

def liveMasters : List Str := net.addresses.filter net.live

def trackerGroup : Str := [';'].intercalate net.addresses

def lastLive : Str := net.liveMasters.getLast net.someLive

/-- A connection is taken exactly by live masters. -/
def surroundings (master : Str) (nowTime uninitialised : Int) : Surroundings where
  nowTime := nowTime
  connect _ address :=
    if address ∈ net.liveMasters then some (net.descriptor master address) else none
  uninitialised := uninitialised
  loopFuel := net.addresses.length

def startMaster (master : Str) : Node where
  fdcsEnv := { settings := { trackerGroup := net.trackerGroup, trackerServer := master } }
  masterSockets := OrderedMap.empty.set master (net.descriptor master master)
  sendBuffers := [net.descriptor master master]

end Network

structure Envelope where
  receiver : Str
  proto : TrackerProtocol
deriving DecidableEq

/-- The masters and the messages on their way. The lists record what happened:
the masters that activated themselves, and the `COORDINATOR` messages that came
back to the master that sent them first, with the master they name. -/
structure State where
  masters : Str → Node
  inFlight : List Envelope := []
  activated : List Str := []
  returned : List (Str × Str) := []

/-- A live master asks for the primary, or a message in flight is delivered. The
rest of an action is what the handler reads from outside. -/
inductive Action where
  | askTracker (master : Str) (nowTime uninitialised : Int)
  | deliver (index : Nat) (socketFd nowTime uninitialised : Int)

variable (pb : Protobuf) (net : Network)

/-- The messages a master has sent, each on its way to the master connected
under the descriptor. -/
def sentBy (master : Str) (effects : List Effect) : List Envelope :=
  effects.filterMap fun
    | .send fd proto =>
        (net.liveMasters.find? fun b => decide (net.descriptor master b = fd)).map
          fun receiver => ⟨receiver, proto⟩
    | _ => none

/-- The handler an action runs, the master it runs at and the messages left in
flight. -/
def handlerOf (s : State) : Action → Option (Str × Handler Bool × List Envelope)
  | .askTracker master nowTime uninitialised =>
      if master ∈ net.liveMasters then
        some (master, Master.askTracker (net.surroundings master nowTime uninitialised),
          s.inFlight)
      else none
  | .deliver index socketFd nowTime uninitialised =>
      s.inFlight[index]?.map fun envelope =>
        (envelope.receiver,
          protocolProcess pb (net.surroundings envelope.receiver nowTime uninitialised) socketFd
            envelope.proto,
          s.inFlight.eraseIdx index)

/-- `UpgradeTracker` ran at a master that took itself for primary. -/
def activates (h : Handling) : Bool :=
  decide (Effect.masterSignal ∈ h.effects) && h.node.iAmPrimaryMaster &&
    decide (h.node.fdcsEnv.fdcsTimeDiffer = 0)

/-- The `COORDINATOR` an action brings back to the master that sent it first. -/
def returnedBy (s : State) : Action → Option (Str × Str)
  | .askTracker _ _ _ => none
  | .deliver index _ _ _ =>
      match s.inFlight[index]? with
      | none => none
      | some envelope =>
          if envelope.proto.protocolType = .coordinator ∧
              envelope.proto.requestSockAddr = envelope.receiver then
            some (envelope.receiver, envelope.proto.responseResult)
          else none

def step (s : State) (a : Action) : Option State :=
  match handlerOf pb net s a with
  | none => none
  | some (master, handler, left) =>
      match handler.run { node := s.masters master } with
      | .error _ => none
      | .ok r =>
          some
            { masters := Function.update s.masters master r.2.node
              inFlight := left ++ sentBy net master r.2.effects
              activated := if activates r.2 then s.activated ++ [master] else s.activated
              returned := s.returned ++ (returnedBy s a).toList }

def initial : State where
  masters := net.startMaster

end FastDCS.Cluster
