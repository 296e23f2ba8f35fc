import FastDCS.CheckedNodes
import FastDCS.GroupSearch

/-!
Which messages a node survives: the fields the handlers put into a `CHECK`
without a look at them, and the walk along the tracker group.
-/

namespace FastDCS.MessageChecks

open FastDCS.Strings
open FastDCS.Messages
open FastDCS.Handlers
open FastDCS.Tracker
open FastDCS.Connections
open FastDCS.GroupSearch
open FastDCS.SuccessorSearch
open FastDCS.CheckedNodes

section Conditions

variable (node : Node) (now : Int) (proto : TrackerProtocol)

def members : List Str := splitStringUsing node.trackerGroup ';'

/-- Where the walk of `FindNextMaster` has to stop if no connection comes about:
at the own address, at one with a socket and at one that fails the `CHECK`. -/
def halts : Str → Bool :=
  stopAt node.trackerServer fun address =>
    (node.masterSockets.find? address).isSome || !decide (IpAndPort address)

def Walks (bound : Nat) : Prop :=
  members node ≠ [] ∧ ∃ address,
    search (nextAddress (members node)) (halts node) bound
        (nextAddress (members node) node.trackerServer) = some address ∧ IpAndPort address

/-- The successors in the group lead from the own address back to it, or to a
master with a socket, and all on the way are of the form ip:port. -/
def WalkEnds : Prop := ∃ bound, Walks node bound

/-- The addresses an election that has gone round has passed. -/
def passMaster : Str := proto.responseSockAddr ++ ';' :: node.trackerServer

/-- The messages a master survives. -/
def MasterAllowed : Prop :=
  let closed := Master.closedCircle node proto = true
  let timed := 0 ≤ node.fdcsEnv.fdcsTime now
  match proto.protocolType with
  | .election =>
      if closed then
        (∃ address ∈ members node, contains (passMaster node proto) address = true) →
          WalkEnds node ∧
            (nextAddress (members node) node.trackerServer ≠ node.trackerServer → timed)
      else WalkEnds node
  | .coordinator => IpAndPort proto.responseResult ∧ (¬closed → WalkEnds node)
  | .masterAskTracker =>
      (node.iAmPrimaryMaster = true → timed) ∧
        if closed ∧ proto.responseResult ≠ [] then IpAndPort proto.responseResult
        else WalkEnds node
  | .workerAskTracker => node.primarySockaddr ≠ [] → timed
  | .masterJoinGroup =>
      (contains node.trackerGroup proto.requestSockAddr = true →
          IpAndPort proto.requestSockAddr) ∧
        (node.iAmPrimaryMaster = true → WalkEnds node)
  | .masterGroupChanged =>
      ¬closed →
        (∀ address ∈ splitStringUsing proto.requestArgs ';',
            contains node.trackerGroup address = true → IpAndPort address) ∧ WalkEnds node
  | .workerRequestTask =>
      node.iAmPrimaryMaster = false → contains proto.responseSockAddr node.trackerServer = false →
        node.primarySockaddr ≠ [] → (node.masterSockets.find? node.primarySockaddr).isSome = true
  | _ => True

/-- The messages a worker survives. -/
def WorkerAllowed : Prop :=
  proto.protocolType = .workerAskTracker →
    contains node.trackerGroup proto.responseResult = true → IpAndPort proto.responseResult

def Allowed : Prop :=
  if node.isMaster = true then MasterAllowed node now proto else WorkerAllowed node proto

end Conditions

section Returning

variable {around : Surroundings} {node : Node}

/-- No fault is permitted. -/
def Returns {α : Type} (x : Handler α) (s : Handling) (Q : α → Handling → Prop) : Prop :=
  Ensures x s Q fun _ => False

/-- Connecting and noting the time keep what the walk depends on. -/
structure Extends (node node' : Node) : Prop where
  settings : node'.fdcsEnv.settings = node.fdcsEnv.settings
  kept : ∀ address, (node.masterSockets.find? address).isSome = true →
    (node'.masterSockets.find? address).isSome = true

theorem Extends.refl (node : Node) : Extends node node := ⟨rfl, fun _ h => h⟩

theorem Extends.trans {node' node'' : Node} (h : Extends node node')
    (h' : Extends node' node'') : Extends node node'' :=
  ⟨h'.settings.trans h.settings, fun address hsome => h'.kept address (h.kept address hsome)⟩

theorem Extends.trackerServer {node' : Node} (h : Extends node node') :
    node'.trackerServer = node.trackerServer := by
  rw [Node.trackerServer, Node.trackerServer, h.settings]

theorem Extends.trackerGroup {node' : Node} (h : Extends node node') :
    node'.trackerGroup = node.trackerGroup := by
  rw [Node.trackerGroup, Node.trackerGroup, h.settings]

variable {pb : Protobuf} {bound : Nat} {now : Int} {proto : TrackerProtocol} {s : Handling}

end Returning

section Needing

variable {pb : Protobuf} {around : Surroundings} {s : Handling} {proto : TrackerProtocol}
  {α : Type} {x : Handler α} {Q P : α → Handling → Prop}

/-- Where the handler returns it also does what it does wherever it returns. -/
theorem Returns.meets (h : Returns x s Q) (hP : Ensures x s P fun _ => True) :
    ∃ a t, Q a t ∧ P a t := by
  obtain ⟨r, hr, hQ⟩ := Ensures.returns h
  exact ⟨r.1, r.2, hQ, hP.of_run_eq_ok hr⟩

/-- Nothing the walk depends on is changed. -/
structure Unmoved (node node' : Node) : Prop where
  settings : node'.fdcsEnv.settings = node.fdcsEnv.settings
  masterSockets : node'.masterSockets = node.masterSockets
  isMaster : node'.isMaster = node.isMaster

theorem Unmoved.trackerServer {node node' : Node} (h : Unmoved node node') :
    node'.trackerServer = node.trackerServer := by
  rw [Node.trackerServer, Node.trackerServer, h.settings]

theorem Unmoved.checked {node node' : Node} (h : Unmoved node node') (hnode : Checked node) :
    Checked node' := by
  constructor
  · rw [h.masterSockets]
    exact hnode.sockets
  · rw [h.isMaster, h.trackerServer]
    exact hnode.server

section Quiet

variable (hquiet : ∀ k address, around.connect k address = none)

include hquiet

end Quiet

end Needing

section Messages

variable {pb : Protobuf} {node : Node} {now socketFd : Int} {proto : TrackerProtocol}

end Messages

section Started

/-- The settings of a group of one master. -/
def oneMaster : Settings where
  trackerGroup := "127.0.0.1:3230".toList
  trackerServer := "127.0.0.1:3230".toList

def started : Node where
  fdcsEnv := { settings := oneMaster }
  masterSockets := OrderedMap.empty.set oneMaster.trackerServer 3
  sendBuffers := [3]

end Started

end FastDCS.MessageChecks
