import FastDCS.Heaps
import FastDCS.Runs

/-!
The connections that the queries of `mysql_accessor.cc` share: a list of nodes
that `GrabDB` makes longer when every node is busy, and that the destructor of
the connection walks twice.
-/

namespace FastDCS.MysqlPool

open Heaps Runs

/-- An `open_mysql_t`. Its MySQL handle goes by the number of the node. -/
@[ext] structure Node where
  next : Option Nat
  busy : Int

/-- The nodes and the first of them. The address and the account are only handed
on to `mysql_real_connect`. -/
structure Connection where
  heap : Heap Node
  openMysql : Option Nat

/-- What `mysql_init` and `mysql_real_connect` do for a new node. -/
inductive Connecting
  | initFails
  | connectFails
  | connects
  deriving DecidableEq

/-- Why a function does not return. -/
inductive Fault
  | invalidPointer
  | outOfTurns
  deriving DecidableEq

def deref (heap : Heap Node) : Option Nat → Except Fault Node
  | none => .error .invalidPointer
  | some p => (heap.find? p).elim (.error .invalidPointer) .ok

/-- The loop of `GrabDB`: the first node that is not busy. -/
def grabLoop (heap : Heap Node) : Nat → Option Nat → Except Fault (Option Nat)
  | _, none => .ok none
  | 0, some _ => .error .outOfTurns
  | turns + 1, some p => do
      let node ← deref heap (some p)
      if node.busy = 0 then return some p
      grabLoop heap turns node.next

def grabDB (turns : Nat) (connecting : Connecting) (c : Connection) :
    Except Fault (Option Nat × Connection) := do
  match ← grabLoop c.heap turns c.openMysql with
  | none =>
      match connecting with
      -- The node of a failed attempt is neither listed nor deleted.
      | .initFails | .connectFails => return (none, { c with heap := c.heap.alloc ⟨none, 0⟩ })
      | .connects =>
          return (some c.heap.next, ⟨c.heap.alloc ⟨c.openMysql, 1⟩, some c.heap.next⟩)
  | some p =>
      let node ← deref c.heap (some p)
      match c.heap.write p { node with busy := node.busy + 1 } with
      | none => throw .invalidPointer
      | some heap => return (some p, { c with heap := heap })

def freeDB (c : Connection) : Option Nat → Except Fault (Bool × Connection)
  | none => return (false, c)
  | some p => do
      let node ← deref c.heap (some p)
      match c.heap.write p { node with busy := 0 } with
      | none => throw .invalidPointer
      | some heap => return (true, { c with heap := heap })

/-- The first loop of `~MysqlConnection`, with the handles it has closed. It goes on
with the node after the first one of the list, wherever its pointer is. -/
def closeLoop (c : Connection) : Nat → Option Nat → List Nat →
    Except Fault (Option Nat × List Nat)
  | _, none, closed => .ok (none, closed)
  | 0, some _, _ => .error .outOfTurns
  | turns + 1, some p, closed => do
      let _ ← deref c.heap (some p)
      let head ← deref c.heap c.openMysql
      closeLoop c turns head.next (closed ++ [p])

/-- The second loop of `~MysqlConnection`, with the nodes it has deleted. -/
def deleteLoop (openMysql : Option Nat) : Nat → Heap Node → Option Nat → List Nat →
    Except Fault (List Nat)
  | _, _, none, freed => .ok freed
  | 0, _, some _, _ => .error .outOfTurns
  | turns + 1, heap, some _, freed => do
      let head ← deref heap openMysql
      match head.next with
      | none => throw .invalidPointer
      | some p =>
          match heap.delete p with
          | none => throw .invalidPointer
          | some heap => deleteLoop openMysql turns heap (some p) (freed ++ [p])

/-- `~MysqlConnection`: the handles it closes and the nodes it deletes. -/
def destroy (turns : Nat) (c : Connection) : Except Fault (List Nat × List Nat) := do
  let (openMysql, closed) ← closeLoop c turns c.openMysql []
  let freed ← deleteLoop c.openMysql turns c.heap openMysql []
  return (closed, freed)

/-- The nodes of the list from a pointer on. -/
def Chain (heap : Heap Node) : Option Nat → List Nat → Prop
  | p, [] => p = none
  | p, q :: rest => p = some q ∧ ∃ node, heap.find? q = some node ∧ Chain heap node.next rest

/-- The destructor returns, having closed each handle of the list once and deleted
each node of it once. -/
def TornDown (c : Connection) : Prop :=
  ∃ turns closed freed ids, destroy turns c = .ok (closed, freed) ∧
    Chain c.heap c.openMysql ids ∧ closed.Perm ids ∧ freed.Perm ids

/-- A connection and the nodes that its queries hold. -/
structure Pool where
  connection : Connection
  held : List Nat

def Pool.empty : Pool := ⟨⟨Heap.empty, none⟩, []⟩

inductive Action
  | grab (connecting : Connecting)
  | free (openMysql : Option Nat)
  deriving DecidableEq

/-- One call. The list has no more nodes than have been allocated, so that as many
turns are enough for `GrabDB`. -/
def step (s : Pool) : Action → Option Pool
  | .grab connecting =>
      match grabDB s.connection.heap.next connecting s.connection with
      | .error _ => none
      | .ok (p, c) => some ⟨c, p.toList ++ s.held⟩
  | .free p =>
      match freeDB s.connection p with
      | .error _ => none
      | .ok (_, c) => some ⟨c, s.held.filter fun q => some q ≠ p⟩

/-- The next `GrabDB` returns, and not with a node that is held. -/
def GrabsFree (s : Pool) : Prop :=
  ∀ connecting, ∃ turns p c, grabDB turns connecting s.connection = .ok (p, c) ∧
    ∀ q, p = some q → q ∉ s.held

variable {heap heap' : Heap Node} {c c' : Connection} {s s' t : Pool} {ids : List Nat}
  {head : Option Nat} {turns p : Nat} {node : Node}

theorem deref_eq_ok_iff : deref heap (some p) = .ok node ↔ heap.find? p = some node := by
  rw [deref]
  cases heap.find? p with
  | none => simp
  | some n => simp

theorem Chain.congr (hchain : Chain heap head ids)
    (hsame : ∀ p ∈ ids, (heap'.find? p).map Node.next = (heap.find? p).map Node.next) :
    Chain heap' head ids := by
  induction ids generalizing head with
  | nil => exact hchain
  | cons q rest ih =>
      obtain ⟨hhead, n, hn, hrest⟩ := hchain
      have hnext := hsame q List.mem_cons_self
      rw [hn, Option.map_some, Option.map_eq_some_iff] at hnext
      obtain ⟨n', hn', heq⟩ := hnext
      refine ⟨hhead, n', hn', ?_⟩
      rw [heq]
      exact ih hrest fun p hp => hsame p (List.mem_cons_of_mem _ hp)

theorem Chain.find?_isSome (hchain : Chain heap head ids) (hp : p ∈ ids) :
    ∃ node, heap.find? p = some node := by
  induction ids generalizing head with
  | nil => exact absurd hp List.not_mem_nil
  | cons q rest ih =>
      obtain ⟨-, n, hn, hrest⟩ := hchain
      rcases List.mem_cons.mp hp with rfl | hp
      · exact ⟨n, hn⟩
      · exact ih hrest hp

theorem Chain.alloc (hchain : Chain heap head ids) (node : Node) :
    Chain (heap.alloc node) head ids := by
  refine hchain.congr fun p hp => ?_
  obtain ⟨n, hn⟩ := hchain.find?_isSome hp
  have hne : p ≠ heap.next := by
    rintro rfl
    rw [Heap.find?_next] at hn
    cases hn
  rw [Heap.find?_alloc, if_neg hne]

theorem Chain.write (hchain : Chain heap head ids) (hp : heap.find? p = some node)
    (busy : Int) (hw : heap.write p { node with busy := busy } = some heap') :
    Chain heap' head ids := by
  refine hchain.congr fun q _ => ?_
  rw [Heap.find?_write hw]
  split_ifs with hq
  · rw [hq, hp]
    rfl
  · rfl

/-- What the loop of `GrabDB` finds in a list that fits the turns. -/
theorem grabLoop_eq (hchain : Chain heap head ids) (hturns : ids.length ≤ turns) :
    (∃ p ∈ ids, ∃ node, heap.find? p = some node ∧ node.busy = 0 ∧
      grabLoop heap turns head = .ok (some p)) ∨ grabLoop heap turns head = .ok none := by
  induction ids generalizing head turns with
  | nil =>
      have hhead : head = none := hchain
      rw [hhead]
      exact .inr (by rw [grabLoop])
  | cons q rest ih =>
      obtain ⟨rfl, n, hn, hrest⟩ := hchain
      obtain ⟨k, rfl⟩ := Nat.exists_eq_add_of_le' (Nat.le_of_add_left_le hturns)
      have hloop : grabLoop heap (k + 1) (some q) =
          if n.busy = 0 then .ok (some q) else grabLoop heap k n.next := by
        rw [grabLoop, deref_eq_ok_iff.mpr hn]
        rfl
      rw [hloop]
      by_cases hbusy : n.busy = 0
      · rw [if_pos hbusy]
        exact .inl ⟨q, List.mem_cons_self, n, hn, hbusy, rfl⟩
      · rw [if_neg hbusy]
        rcases ih hrest (Nat.le_of_succ_le_succ hturns) with ⟨p, hp, hfound⟩ | hnone
        · exact .inl ⟨p, List.mem_cons_of_mem _ hp, hfound⟩
        · exact .inr hnone

/-- What the calls keep: the list, its length, and that held nodes are busy nodes of
the list. -/
structure Pooled (s : Pool) (ids : List Nat) : Prop where
  chain : Chain s.connection.heap s.connection.openMysql ids
  length_le : ids.length ≤ s.connection.heap.next
  mem_of_held : ∀ p ∈ s.held, p ∈ ids
  busy_of_held : ∀ p ∈ s.held, ∀ node, s.connection.heap.find? p = some node → node.busy ≠ 0

theorem pooled_empty : Pooled Pool.empty [] where
  chain := rfl
  length_le := Nat.le_refl _
  mem_of_held _ hp := absurd hp List.not_mem_nil
  busy_of_held _ hp := absurd hp List.not_mem_nil

theorem write_next {x : Node} (hw : heap.write p x = some heap') : heap'.next = heap.next := by
  rw [Heap.write] at hw
  split_ifs at hw
  rw [← Option.some.inj hw]

/-- Marking a node of the list keeps the list; the holders have to be right. -/
theorem Pooled.write {held : List Nat} (hs : Pooled s ids)
    (hp : s.connection.heap.find? p = some node) {busy : Int}
    (hw : s.connection.heap.write p { node with busy := busy } = some heap')
    (hheld : ∀ q ∈ held, q ∈ ids ∧ if q = p then busy ≠ 0 else q ∈ s.held) :
    Pooled ⟨{ s.connection with heap := heap' }, held⟩ ids where
  chain := hs.chain.write hp busy hw
  length_le := by
    show ids.length ≤ heap'.next
    rw [write_next hw]
    exact hs.length_le
  mem_of_held q hq := (hheld q hq).1
  busy_of_held q hq n hn := by
    have hmarked := (hheld q hq).2
    have hfind : heap'.find? q = some n := hn
    rw [Heap.find?_write hw] at hfind
    split_ifs at hfind hmarked with heq
    · rw [← Option.some.inj hfind]
      exact hmarked
    · exact hs.busy_of_held q hmarked n hfind

theorem Pooled.alloc (hs : Pooled s ids) (node : Node) :
    Pooled ⟨{ s.connection with heap := s.connection.heap.alloc node }, s.held⟩ ids where
  chain := hs.chain.alloc node
  length_le := Nat.le_succ_of_le hs.length_le
  mem_of_held := hs.mem_of_held
  busy_of_held q hq n hn := by
    obtain ⟨n', hn'⟩ := hs.chain.find?_isSome (hs.mem_of_held q hq)
    have hne : q ≠ s.connection.heap.next := by
      rintro rfl
      rw [Heap.find?_next] at hn'
      cases hn'
    refine hs.busy_of_held q hq n ?_
    rw [← hn]
    exact (Heap.find?_alloc.trans (if_neg hne)).symm

theorem Pooled.push (hs : Pooled s ids) :
    Pooled ⟨⟨s.connection.heap.alloc ⟨s.connection.openMysql, 1⟩, some s.connection.heap.next⟩,
      s.connection.heap.next :: s.held⟩ (s.connection.heap.next :: ids) where
  chain := by
    refine ⟨rfl, ⟨s.connection.openMysql, 1⟩, ?_, hs.chain.alloc _⟩
    rw [Heap.find?_alloc, if_pos rfl]
  length_le := Nat.succ_le_succ hs.length_le
  mem_of_held q hq := by
    rcases List.mem_cons.mp hq with rfl | hq
    · exact List.mem_cons_self
    · exact List.mem_cons_of_mem _ (hs.mem_of_held q hq)
  busy_of_held q hq n hn := by
    rw [Heap.find?_alloc] at hn
    split_ifs at hn with heq
    · rw [← Option.some.inj hn]
      exact Int.one_ne_zero
    · have hheld : q ∈ s.held := (List.mem_cons.mp hq).resolve_left heq
      exact hs.busy_of_held q hheld n hn

theorem Pooled.not_mem_held (hs : Pooled s ids)
    (hp : s.connection.heap.find? p = some node) (hbusy : node.busy = 0) : p ∉ s.held :=
  fun hheld => hs.busy_of_held p hheld node hp hbusy

theorem Pooled.next_not_mem_held (hs : Pooled s ids) : s.connection.heap.next ∉ s.held := by
  intro hheld
  obtain ⟨n, hn⟩ := hs.chain.find?_isSome (hs.mem_of_held _ hheld)
  rw [Heap.find?_next] at hn
  cases hn

/-- What `GrabDB` returns, and what it leaves. -/
theorem grabDB_spec (hs : Pooled s ids) (connecting : Connecting) :
    ∃ p c, grabDB s.connection.heap.next connecting s.connection = .ok (p, c) ∧
      (∀ q, p = some q → q ∉ s.held) ∧
      (∃ ids', Pooled ⟨c, p.toList ++ s.held⟩ ids') ∧
      (c.openMysql = none ↔ s.connection.openMysql = none ∧ connecting ≠ .connects) := by
  rcases grabLoop_eq hs.chain hs.length_le with ⟨p, hmem, node, hp, hbusy, hloop⟩ | hloop
  · have hsome : s.connection.openMysql ≠ none := by
      intro hnone
      rw [hnone] at hloop
      unfold grabLoop at hloop
      exact absurd hloop (by simp)
    obtain ⟨heap', hw⟩ := s.connection.heap.exists_write { node with busy := node.busy + 1 }
      (p := p) (by rw [hp]; rfl)
    refine ⟨some p, { s.connection with heap := heap' }, ?_, ?_, ⟨ids, ?_⟩, ?_⟩
    · rw [grabDB.eq_def, hloop]
      show (deref s.connection.heap (some p)).bind _ = _
      rw [deref_eq_ok_iff.mpr hp]
      show (match s.connection.heap.write p { node with busy := node.busy + 1 } with
        | none => throw Fault.invalidPointer
        | some heap => _) = _
      rw [hw]
      rfl
    · rintro q ⟨⟩
      exact hs.not_mem_held hp hbusy
    · refine hs.write hp hw fun q hq => ?_
      rcases List.mem_cons.mp hq with rfl | hq
      · exact ⟨hmem, by rw [if_pos rfl, hbusy]; exact Int.one_ne_zero⟩
      · refine ⟨hs.mem_of_held q hq, ?_⟩
        split_ifs
        · rw [hbusy]
          exact Int.one_ne_zero
        · exact hq
    · exact iff_of_false hsome fun hnone => hsome hnone.1
  · have hgrab : grabDB s.connection.heap.next connecting s.connection =
        match connecting with
        | .initFails | .connectFails =>
            .ok (none, { s.connection with heap := s.connection.heap.alloc ⟨none, 0⟩ })
        | .connects =>
            .ok (some s.connection.heap.next,
              ⟨s.connection.heap.alloc ⟨s.connection.openMysql, 1⟩,
                some s.connection.heap.next⟩) := by
      rw [grabDB.eq_def, hloop]
      cases connecting <;> rfl
    rw [hgrab]
    cases connecting with
    | connects =>
        refine ⟨_, _, rfl, ?_, ⟨_, hs.push⟩, iff_of_false (by simp) (by simp)⟩
        rintro q ⟨⟩
        exact hs.next_not_mem_held
    | initFails => exact ⟨_, _, rfl, by simp, ⟨_, hs.alloc _⟩, by simp⟩
    | connectFails => exact ⟨_, _, rfl, by simp, ⟨_, hs.alloc _⟩, by simp⟩

theorem freeDB_spec {answer : Bool} {p : Option Nat} (hs : Pooled s ids)
    (hfree : freeDB s.connection p = .ok (answer, c)) :
    Pooled ⟨c, s.held.filter fun q => some q ≠ p⟩ ids ∧
      c.openMysql = s.connection.openMysql := by
  cases p with
  | none =>
      obtain ⟨-, rfl⟩ := Prod.mk.inj (Except.ok.inj hfree)
      have hall : (s.held.filter fun q => some q ≠ none) = s.held :=
        List.filter_eq_self.mpr fun q _ => decide_eq_true (Option.some_ne_none q)
      rw [hall]
      exact ⟨hs, rfl⟩
  | some p =>
      rw [freeDB] at hfree
      obtain ⟨node, hp⟩ : ∃ node, s.connection.heap.find? p = some node := by
        cases hfind : s.connection.heap.find? p with
        | none =>
            rw [deref, hfind] at hfree
            cases hfree
        | some node => exact ⟨node, rfl⟩
      obtain ⟨heap', hw⟩ := s.connection.heap.exists_write { node with busy := 0 }
        (p := p) (by rw [hp]; rfl)
      rw [deref_eq_ok_iff.mpr hp] at hfree
      replace hfree : (match s.connection.heap.write p { node with busy := 0 } with
        | none => throw Fault.invalidPointer
        | some heap => return (true, { s.connection with heap := heap })) =
          Except.ok (answer, c) := hfree
      rw [hw] at hfree
      obtain ⟨-, rfl⟩ := Prod.mk.inj (Except.ok.inj hfree)
      refine ⟨hs.write hp hw fun q hq => ?_, rfl⟩
      rw [List.mem_filter, decide_eq_true_eq] at hq
      rw [if_neg fun heq => hq.2 (congrArg some heq)]
      exact ⟨hs.mem_of_held q hq.1, hq.1⟩

/-- What one call keeps, and when the list stays empty. -/
theorem step_spec {a : Action} (hs : ∃ ids, Pooled s ids) (hstep : step s a = some s') :
    (∃ ids, Pooled s' ids) ∧ (s'.connection.openMysql = none ↔
      s.connection.openMysql = none ∧ a ≠ .grab .connects) := by
  obtain ⟨ids, hs⟩ := hs
  cases a with
  | grab connecting =>
      obtain ⟨p, c, hgrab, -, hpooled, hempty⟩ := grabDB_spec hs connecting
      rw [step, hgrab] at hstep
      obtain rfl := Option.some.inj hstep
      exact ⟨hpooled, by simpa using hempty⟩
  | free p =>
      rw [step] at hstep
      split at hstep
      · cases hstep
      · rename_i answer c hfree
        obtain rfl := Option.some.inj hstep
        obtain ⟨hpooled, hsame⟩ := freeDB_spec hs hfree
        refine ⟨⟨ids, hpooled⟩, ?_⟩
        show c.openMysql = none ↔ _
        rw [hsame]
        simp

theorem run_spec {as : List Action} (hs : ∃ ids, Pooled s ids)
    (hrun : run step s as = some t) :
    (∃ ids, Pooled t ids) ∧ (t.connection.openMysql = none ↔
      s.connection.openMysql = none ∧ ∀ a ∈ as, a ≠ .grab .connects) := by
  induction as generalizing s with
  | nil =>
      obtain rfl := Option.some.inj hrun
      exact ⟨hs, by simp⟩
  | cons a as ih =>
      obtain ⟨s', hstep, hrest⟩ := run_cons_eq_some.mp hrun
      obtain ⟨hpooled, hiff⟩ := step_spec hs hstep
      obtain ⟨htpooled, htiff⟩ := ih hpooled hrest
      refine ⟨htpooled, ?_⟩
      rw [htiff, hiff, List.forall_mem_cons, and_assoc]

theorem closeLoop_cursor {turns : Nat} {p q : Option Nat} {closed closed' : List Nat}
    (h : closeLoop c turns p closed = .ok (q, closed')) : q = none := by
  induction turns generalizing p closed with
  | zero =>
      cases p with
      | none => exact (Prod.mk.inj (Except.ok.inj h)).1.symm
      | some p => cases h
  | succ k ih =>
      cases p with
      | none => exact (Prod.mk.inj (Except.ok.inj h)).1.symm
      | some p =>
          rw [closeLoop] at h
          cases hp : deref c.heap (some p) with
          | error fault =>
              rw [hp] at h
              cases h
          | ok node =>
              cases hhead : deref c.heap c.openMysql with
              | error fault =>
                  rw [hp, hhead] at h
                  cases h
              | ok first =>
                  rw [hp, hhead] at h
                  exact ih h

/-- The second loop finds its pointer at the end of the list and deletes nothing. -/
theorem destroy_frees_nothing {closed freed : List Nat}
    (h : destroy turns c = .ok (closed, freed)) : freed = [] := by
  rw [destroy] at h
  cases hclose : closeLoop c turns c.openMysql [] with
  | error fault =>
      rw [hclose] at h
      cases h
  | ok left =>
      obtain ⟨q, closed'⟩ := left
      obtain rfl := closeLoop_cursor hclose
      rw [hclose] at h
      have hdelete : deleteLoop c.openMysql turns c.heap none [] = .ok [] := by rw [deleteLoop]
      replace h : (deleteLoop c.openMysql turns c.heap none []).bind
          (fun freed => Except.ok (closed', freed)) = .ok (closed, freed) := h
      rw [hdelete] at h
      exact (Prod.mk.inj (Except.ok.inj h)).2.symm

theorem tornDown_iff : TornDown c ↔ c.openMysql = none := by
  constructor
  · rintro ⟨turns, closed, freed, ids, hdestroy, hchain, -, hfreed⟩
    rw [destroy_frees_nothing hdestroy, List.nil_perm] at hfreed
    rw [hfreed] at hchain
    exact hchain
  · intro hnone
    refine ⟨0, [], [], [], ?_, hnone, List.Perm.refl _, List.Perm.refl _⟩
    rw [destroy, hnone]
    rfl

/-- The first loop, once on the second node, closes that node's handle for ever. -/
theorem closeLoop_stuck {q : Nat} {first second : Node}
    (hfirst : deref c.heap c.openMysql = .ok first) (hnext : first.next = some q)
    (hsecond : c.heap.find? q = some second) (turns : Nat) (closed : List Nat) :
    closeLoop c turns (some q) closed = .error .outOfTurns := by
  induction turns generalizing closed with
  | zero => rfl
  | succ k ih =>
      rw [closeLoop, deref_eq_ok_iff.mpr hsecond, hfirst]
      show closeLoop c k first.next (closed ++ [q]) = _
      rw [hnext]
      exact ih _

/-- The destructor of a connection with two nodes or more does not return. -/
theorem destroy_of_two {p q : Nat} {rest : List Nat}
    (hchain : Chain c.heap c.openMysql (p :: q :: rest)) (turns : Nat) :
    destroy turns c = .error .outOfTurns := by
  obtain ⟨hhead, first, hfirst, hnext, second, hsecond, -⟩ := hchain
  have hderef : deref c.heap c.openMysql = .ok first := by
    rw [hhead]
    exact deref_eq_ok_iff.mpr hfirst
  have hclose : closeLoop c turns c.openMysql [] = .error .outOfTurns := by
    cases turns with
    | zero =>
        rw [hhead]
        rfl
    | succ k =>
        rw [hhead, closeLoop, deref_eq_ok_iff.mpr hfirst, hderef]
        show closeLoop c k first.next _ = _
        rw [hnext]
        exact closeLoop_stuck hderef hnext hsecond k _
  rw [destroy, hclose]
  rfl

theorem Pooled.grabsFree (hs : Pooled s ids) : GrabsFree s := by
  intro connecting
  obtain ⟨p, c, hgrab, hfree, -⟩ := grabDB_spec hs connecting
  exact ⟨_, p, c, hgrab, hfree⟩

/-- In every run a held node is not grabbed again, and the connection is torn down
exactly when no call of the run has opened a handle. -/
theorem tornDown_iff_none_opened {as : List Action} (hrun : run step Pool.empty as = some t) :
    GrabsFree t ∧ (TornDown t.connection ↔ ∀ a ∈ as, a ≠ .grab .connects) := by
  obtain ⟨⟨ids, hpooled⟩, hiff⟩ := run_spec ⟨[], pooled_empty⟩ hrun
  refine ⟨hpooled.grabsFree, ?_⟩
  rw [tornDown_iff, hiff]
  exact and_iff_right rfl

theorem reused_not_tornDown :
    ∃ t, run step Pool.empty [.grab .connects, .free (some 0), .grab .connects] = some t ∧
      GrabsFree t ∧ ¬ TornDown t.connection := by
  have h := tornDown_iff_none_opened (t := _)
    (rfl : run step Pool.empty [.grab .connects, .free (some 0), .grab .connects] = _)
  refine ⟨_, rfl, h.1, ?_⟩
  rw [h.2]
  decide

/-- Two queries at one time: the destructor closes the handle that was opened
first for ever. -/
theorem not_every_pool_tornDown :
    ¬ ∀ as t, run step Pool.empty as = some t → GrabsFree t ∧ TornDown t.connection := by
  intro hall
  obtain ⟨-, htorn⟩ := hall [.grab .connects, .grab .connects] _ rfl
  cases tornDown_iff.mp htorn

end FastDCS.MysqlPool
