import Mathlib.Data.List.Basic
import FastDCS.RbTreeRuns
import FastDCS.Strings

/-!
`conhash.c`, `conhash_inter.c` and `conhash_util.c`: servers on a ring of virtual nodes,
which are the data of the nodes of a red-black tree.
-/

namespace FastDCS.ConhashNodes

open FastDCS.Handlers
open FastDCS.Heaps
open FastDCS.LinkedTrees
open FastDCS.MachineIntegers
open FastDCS.RbTrees
open FastDCS.Strings

/-- `node_s`; `iden` has all of its 64 characters. -/
structure NodeS where
  iden : List Char
  replicas : UInt32
  flag : UInt32

def nodeFlagInit : UInt32 := 0x01

def nodeFlagIn : UInt32 := 0x02

/-- `virtual_node_s`. -/
structure VirtualNode where
  hash : Int
  node : Nat
deriving DecidableEq

/-- `conhash_s`, whose tree has pointers to virtual nodes as data, the memory it lives in,
and the servers of the caller. -/
structure ConhashS where
  vnodeTree : UtilRbtree Nat
  ivnodes : UInt32
  vnodes : Heap VirtualNode
  servers : Nat → NodeS
  mallocs : Nat

/-- The hash function, and which calls of `malloc` fail. -/
structure Platform where
  hashfunc : Str → Int
  mallocFails : Nat → Bool

abbrev Procedure (β : Type) := StateT ConhashS (Except Fault) β

section Memory

/-- A call of the tree's functions. -/
def onTree {β : Type} (x : Program Nat β) : Procedure β := fun c =>
  match x.run c.vnodeTree with
  | .ok (b, tree) => .ok (b, { c with vnodeTree := tree })
  | .error e => .error e

def freeRbnode (p : Nat) : Procedure PUnit := do
  let c ← get
  match c.vnodeTree.nodes.delete p with
  | some nodes => set { c with vnodeTree := { c.vnodeTree with nodes := nodes } }
  | none => throw .badPointer

def freeVnode (p : Nat) : Procedure PUnit := do
  let c ← get
  match c.vnodes.delete p with
  | some vnodes => set { c with vnodes := vnodes }
  | none => throw .badPointer

def vnodeAt (p : Nat) : Procedure VirtualNode := do
  match (← get).vnodes.find? p with
  | some vnode => pure vnode
  | none => throw .badPointer

def dataOf (rbnode : Nat) : Procedure Nat := onTree do return (← nodeAt rbnode).item.data

/-- Whether the next call of `malloc` gives memory. -/
def malloc (platform : Platform) : Procedure Bool := do
  let c ← get
  set { c with mallocs := c.mallocs + 1 }
  return !platform.mallocFails c.mallocs

/-- The string that starts a field, which must not go on behind it. -/
def cString (field : List Char) : Procedure Str :=
  if '\x00' ∈ field then pure (field.takeWhile (· ≠ '\x00')) else throw .badPointer

/-- `strncpy`: what is short is filled up, and what is too long is cut off. -/
def strncpy (dest : List Char) (src : Str) (n : Nat) : List Char :=
  let copied := (src.takeWhile (· ≠ '\x00')).take n
  copied ++ List.replicate (n - copied.length) '\x00' ++ dest.drop n

/-- `%03d`. -/
def threeDigits (value : Int) : Str :=
  let digits := Nat.toDigits 10 value.natAbs
  if value < 0 then '-' :: (List.replicate (2 - digits.length) '0' ++ digits)
  else List.replicate (3 - digits.length) '0' ++ digits

end Memory

variable (platform : Platform)

/-- `__conhash_node2string`. -/
def conhashNode2string (iden : Str) (replicaIdx : UInt32) : Str :=
  (iden ++ '-' :: threeDigits (narrow 31 replicaIdx.toNat)).take 126

/-- `__conhash_get_rbnode`, whose result has no links and no colour yet. -/
def conhashGetRbnode (node : Nat) (hash : Int) : Procedure (Option Nat) := do
  if ← malloc platform then
    if ← malloc platform then
      let c ← get
      let rbnode := c.vnodeTree.nodes.next
      let vnode := c.vnodes.next
      set { c with
        vnodeTree := { c.vnodeTree with
          nodes := c.vnodeTree.nodes.alloc ⟨⟨hash, .red, vnode⟩, none, none, none⟩ }
        vnodes := c.vnodes.alloc ⟨hash, node⟩ }
      return some rbnode
    else return none
  else return none

/-- `__conhash_del_rbnode`. -/
def conhashDelRbnode (rbnode : Nat) : Procedure PUnit := do
  freeVnode (← dataOf rbnode)
  freeRbnode rbnode

/-- The hash of a virtual node of a server. -/
def vnodeHash (node : Nat) (i : UInt32) : Procedure Int := do
  let iden ← cString ((← get).servers node).iden
  return platform.hashfunc (conhashNode2string iden i)

/-- A turn of the loop of `__conhash_add_replicas`. -/
def addReplica (node : Nat) (i : UInt32) : Procedure PUnit := do
  let hash ← vnodeHash platform node i
  if (← onTree (utilRbtreeSearch hash)) = none then
    match ← conhashGetRbnode platform node hash with
    | some rbnode =>
        onTree (utilRbtreeInsert rbnode)
        modify fun c => { c with ivnodes := c.ivnodes + 1 }
    | none => pure ⟨⟩

/-- A turn of the loop of `__conhash_del_replicas`. -/
def delReplica (node : Nat) (i : UInt32) : Procedure PUnit := do
  let hash ← vnodeHash platform node i
  match ← onTree (utilRbtreeSearch hash) with
  | some rbnode =>
      let vnode ← vnodeAt (← dataOf rbnode)
      if vnode.hash = hash ∧ vnode.node = node then
        modify fun c => { c with ivnodes := c.ivnodes - 1 }
        onTree (utilRbtreeDelete rbnode)
        conhashDelRbnode rbnode
  | none => pure ⟨⟩

/-- `for(i = 0; i < node->replicas; i++)`, from `i` on, with the turns that are left. -/
def forReplicas (turn : UInt32 → Procedure PUnit) : (left : Nat) → UInt32 → Procedure PUnit
  | 0, _ => pure ⟨⟩
  | left + 1, i => do
      turn i
      forReplicas turn left (i + 1)

def conhashAddReplicas (node : Nat) : Procedure PUnit := do
  forReplicas (addReplica platform node) ((← get).servers node).replicas.toNat 0

def conhashDelReplicas (node : Nat) : Procedure PUnit := do
  forReplicas (delReplica platform node) ((← get).servers node).replicas.toNat 0

def setFlag (node : Nat) (flag : UInt32) : Procedure PUnit :=
  modify fun c => { c with
    servers := Function.update c.servers node { c.servers node with flag := flag } }

/-- `conhash_init` on new memory: the sentinel is part of the `conhash_s` that is
allocated first. -/
def conhashInit : Procedure Bool := do
  if ← malloc platform then
    modify fun c => { c with
      vnodeTree := { c.vnodeTree with
        nodes := c.vnodeTree.nodes.alloc ⟨⟨0, .red, 0⟩, none, none, none⟩
        null := c.vnodeTree.nodes.next }
      ivnodes := 0 }
    onTree utilRbtreeInit
    return true
  else return false

def conhashSetNode (node : Nat) (iden : Str) (replica : UInt32) : Procedure PUnit :=
  modify fun c => { c with
    servers := Function.update c.servers node
      ⟨strncpy (c.servers node).iden iden 63, replica, nodeFlagInit⟩ }

/-- `conhash_add_node` of a node that is no NULL pointer. -/
def conhashAddNode (node : Nat) : Procedure Int := do
  let flag := ((← get).servers node).flag
  if flag &&& nodeFlagInit = 0 ∨ flag &&& nodeFlagIn ≠ 0 then return -1
  else
    setFlag node (flag ||| nodeFlagIn)
    conhashAddReplicas platform node
    return 0

/-- `conhash_del_node` of a node that is no NULL pointer. -/
def conhashDelNode (node : Nat) : Procedure Int := do
  let flag := ((← get).servers node).flag
  if flag &&& nodeFlagInit = 0 ∨ flag &&& nodeFlagIn = 0 then return -1
  else
    setFlag node (flag &&& ~~~nodeFlagIn)
    conhashDelReplicas platform node
    return 0

/-- `conhash_lookup` of an object that is no NULL pointer. -/
def conhashLookup (object : Str) : Procedure (Option Nat) := do
  if (← get).ivnodes = 0 then return none
  else
    match ← onTree (utilRbtreeLookup (platform.hashfunc object)) with
    | some rbnode => return some (← vnodeAt (← dataOf rbnode)).node
    | none => return none

end FastDCS.ConhashNodes
