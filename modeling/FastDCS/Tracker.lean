import FastDCS.Handlers
import FastDCS.MasterTasks

/-!
The parts of `tracker.cc` that masters and workers share: the sockets to the
other masters, sending a message and walking along the tracker group.

A call of a member function is one handler. What it finds outside the process
(the clock, the outcome of each connection attempt) is a parameter; what it
does to other threads and sockets is a list of effects.
-/

namespace FastDCS.Tracker

open FastDCS.Strings
open FastDCS.Messages
open FastDCS.Handlers

/-- The members of a `Tracker`. A `TCPSocket` is its descriptor, an absent entry
of `masterSockets` a NULL pointer. `sendBuffers` are the descriptors with
buffers and a connector. -/
structure Node where
  fdcsEnv : Enviroment
  isMaster : Bool := true
  primarySockaddr : Str := []
  workerSockaddr : Str := []
  masterSockets : OrderedMap Str Int := .empty
  sendBuffers : List Int := []

inductive Effect where
  | send (receiverFd : Int) (proto : TrackerProtocol)
  | masterSignal
  | taskExchangeSignal
  | heartBeatSignal
deriving DecidableEq

/-- Why a handler does not return: a `CHECK` aborts the process, a NULL pointer
is dereferenced, or a loop takes more turns than the fuel allows. -/
inductive Fault where
  | checkFailed
  | nullDereference
  | outOfFuel
deriving DecidableEq

structure Handling where
  node : Node
  /-- Connection attempts made so far by this handler. -/
  attempts : Nat := 0
  effects : List Effect := []

/-- What a handler meets: the clock, the descriptor each connection attempt
yields if it succeeds, the contents of an uninitialised local and the fuel of
the loop in `FindNextMaster`. -/
structure Surroundings where
  nowTime : Int
  connect : Nat → Str → Option Int
  uninitialised : Int := 0
  loopFuel : Nat

abbrev Handler := StateT Handling (Except Fault)

namespace Node

def trackerGroup (node : Node) : Str := node.fdcsEnv.settings.trackerGroup

def trackerServer (node : Node) : Str := node.fdcsEnv.settings.trackerServer

def iAmPrimaryMaster (node : Node) : Bool :=
  node.isMaster && !node.primarySockaddr.isEmpty &&
    decide (node.primarySockaddr = node.trackerServer)

def iKnowPrimaryMaster (node : Node) : Bool := !node.primarySockaddr.isEmpty

end Node

variable (pb : Protobuf) (around : Surroundings)

def modifyNode (f : Node → Node) : Handler PUnit :=
  modify fun h => { h with node := f h.node }

def modifyEnv (f : Enviroment → Enviroment) : Handler PUnit :=
  modifyNode fun node => { node with fdcsEnv := f node.fdcsEnv }

def emit (effect : Effect) : Handler PUnit :=
  modify fun h => { h with effects := h.effects ++ [effect] }

def check (condition : Bool) : Handler PUnit :=
  if condition then pure ⟨⟩ else throw .checkFailed

def masterSocketFd (address : Str) : Handler Int := do
  match (← get).node.masterSockets.find? address with
  | some fd => pure fd
  | none => throw .nullDereference

def checkIP (address : Str) : Handler PUnit :=
  check (decide ((splitStringUsing address ':').length = 2))

def newTrackerProtocol (node : Node) (protocolType : ProtocolType) : TrackerProtocol where
  protocolType := protocolType
  requestSockAddr := if node.isMaster then node.trackerServer else node.workerSockaddr

def addSocketResource (fd : Int) : Handler PUnit :=
  modifyNode fun node =>
    if fd ∈ node.sendBuffers then node
    else { node with sendBuffers := fd :: node.sendBuffers }

def removeSocketResource (fd : Int) : Handler PUnit :=
  modifyNode fun node => { node with sendBuffers := node.sendBuffers.filter (· ≠ fd) }

def connectMaster (address : Str) : Handler Bool := do
  let h ← get
  if contains h.node.trackerGroup address = false then return false
  if (h.node.masterSockets.find? address).isSome then return true
  checkIP address
  modify fun h => { h with attempts := h.attempts + 1 }
  match around.connect h.attempts address with
  | none => return false
  | some fd =>
      modifyNode fun node => { node with masterSockets := node.masterSockets.set address fd }
      addSocketResource fd
      return true

/-- The message as `SendProtocol` puts it on the wire: a master appends itself
to the addresses passed. -/
def stamped (node : Node) (proto : TrackerProtocol) : TrackerProtocol :=
  { proto with
    responseSockAddr :=
      if node.isMaster then
        if proto.responseSockAddr.isEmpty then node.trackerServer
        else proto.responseSockAddr ++ ';' :: node.trackerServer
      else proto.responseSockAddr }

def sendProtocol (proto : TrackerProtocol) (receiverFd : Int) : Handler Bool := do
  let node := (← get).node
  if receiverFd ∈ node.sendBuffers then
    emit (.send receiverFd (stamped node proto))
    return true
  else return false

/-- The loop of `NextMasterAddress`; `nextAddr` is the address looked at last. -/
def nextAddressLoop (first address : Str) : Str → List Str → Str
  | nextAddr, [] => nextAddr
  | _, candidate :: rest =>
      if candidate = address then rest.headD first
      else nextAddressLoop first address candidate rest

def nextMasterAddress (address : Str) : Handler Str := do
  let masterAddresses := splitStringUsing (← get).node.trackerGroup ';'
  check (decide (0 < masterAddresses.length))
  return nextAddressLoop (masterAddresses.headD []) address [] masterAddresses

def findNextMasterLoop : Nat → Str → Handler Int
  | 0, _ => throw .outOfFuel
  | fuel + 1, nextMasterAddr => do
      if nextMasterAddr = (← get).node.trackerServer then return -1
      if (← connectMaster around nextMasterAddr) then masterSocketFd nextMasterAddr
      else findNextMasterLoop fuel (← nextMasterAddress nextMasterAddr)

def findNextMaster : Handler Int := do
  let nextMasterAddr ← nextMasterAddress (← get).node.trackerServer
  findNextMasterLoop around around.loopFuel nextMasterAddr

def onlineMaster (node : Node) : Str :=
  (splitStringUsing node.trackerGroup ';').foldl
    (fun online address =>
      if (node.masterSockets.find? address).isSome then
        if online.isEmpty then online ++ address else online ++ ';' :: address
      else online)
    []

def masterGroupChanged : Handler Bool := do
  let node := (← get).node
  if (node.isMaster && !node.iAmPrimaryMaster) || !node.isMaster then return false
  let nextMasterFd ← findNextMaster around
  if nextMasterFd = -1 then return true
  let node := (← get).node
  sendProtocol
    { newTrackerProtocol node .masterGroupChanged with requestArgs := onlineMaster node }
    nextMasterFd

/-- The time in the first record of a message that carries one. -/
def protoFdcsTime (proto : TrackerProtocol) : Int :=
  let keyValues :=
    match proto.keyValuesPairs.find? fun pairs => decide (pairs.key = keyValuePairsFdcsTime) with
    | some pairs => readPairs pb pairs .empty
    | none => .empty
  keyToInt32 around.uninitialised ((keyValues.find? keyValuePairsFdcsTime).getD [])

/-- `SocketClose` of a descriptor whose peer is `guestAddr`. -/
def socketClose (socketFd : Int) (guestAddr : Str) : Handler Bool := do
  let node := (← get).node
  if (node.masterSockets.find? guestAddr).isSome then
    modifyNode fun node => { node with masterSockets := node.masterSockets.erase guestAddr }
    if node.primarySockaddr = guestAddr then
      modifyNode fun node => { node with primarySockaddr := [] }
    else
      let _ ← masterGroupChanged around
  removeSocketResource socketFd
  return true

/-- `GetTaskStatus` lists the connected masters. -/
def getTaskStatus (node : Node) (proto : TrackerProtocol) : TrackerProtocol :=
  { proto with
    keyValuesPairs := proto.keyValuesPairs ++
      [{ key := "TrackerStatus".toList
         value := node.masterSockets.keys.map pb.serializeStatus }] }

end FastDCS.Tracker
