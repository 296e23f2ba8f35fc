import Mathlib.Data.Finset.Card
import FastDCS.BoundedFifo
import FastDCS.SignalingQueue

/-!
`SignalingQueue` under calls that never wait: it answers like a list of
messages in the order of their arrival.
-/

namespace FastDCS.QueueCalls

open FastDCS.Strings

/-- A call that does not block. The source of an `Add` has at least as many
bytes as are added; the second overload of `Remove` has no limit. -/
inductive Call where
  | add (src : Str) (size : Int) (readable : size ≤ src.length)
  | remove (maxSize : Option Int)
  | signal (producerId : Int)
  | emptyAndNoMoreAdd

/-- What a call returns, and what a `Remove` writes to its destination. -/
inductive Answer where
  | size (bytes : Int)
  | removed (bytes : Int) (dest : Option Str)
  | done
  | flag (value : Bool)
deriving DecidableEq

/-- The size of a string where it is passed as an `int`. -/
def toInt32 (n : Nat) : Int :=
  if n % 2 ^ 32 < 2 ^ 31 then (n % 2 ^ 32 : Nat) else (n % 2 ^ 32 : Nat) - 2 ^ 32

theorem toInt32_le (n : Nat) : toInt32 n ≤ n := by
  rw [toInt32]
  split_ifs
  · omega
  · omega

/-- `Add` of a string. -/
def addString (src : Str) : Call := .add src (toInt32 src.length) (toInt32_le _)

end FastDCS.QueueCalls

namespace FastDCS.SignalingQueue

open FastDCS.Strings
open FastDCS.QueueCalls

def call (q : SignalingQueue) : Call → Answer × SignalingQueue
  | .add src size _ =>
      if q.rejects size then (.size (-1), q)
      else if size > q.freeSize then (.size 0, q)
      else (.size size, q.store (src.take size.toNat))
  | .remove maxSize =>
      match q.removeWithin maxSize with
      | none => (.removed 0 none, q)
      | some (retval, dest, left) => (.removed retval dest, left)
  | .signal producerId => (.done, q.signal producerId)
  | .emptyAndNoMoreAdd => (.flag q.emptyAndNoMoreAdd, q)

/-- The answers to a sequence of calls and the queue they leave. -/
def calls (q : SignalingQueue) : List Call → List Answer × SignalingQueue
  | [] => ([], q)
  | c :: rest =>
      let (answer, q') := q.call c
      let (answers, last) := q'.calls rest
      (answer :: answers, last)

/-- The constructor. -/
def create (queueSize numProducers : Nat) : SignalingQueue :=
  { new queueSize with numProducers := numProducers }

end FastDCS.SignalingQueue

namespace FastDCS.QueueCalls

open FastDCS.Strings

/-- What the queue is for: messages in order, and the producers that have said
they are finished. -/
structure Channel where
  fifo : BoundedFifo Char
  numProducers : Nat
  finished : Finset Int := ∅

namespace Channel

def closed (c : Channel) : Prop := c.numProducers ≤ c.finished.card

instance (c : Channel) : Decidable c.closed := inferInstanceAs (Decidable (_ ≤ _))

/-- A message that can never fit, an empty one and one that comes after the end
are errors; one that does not fit now is turned away with 0. -/
def add (c : Channel) (size : Int) (message : Str) : Int × Channel :=
  if size ≤ 0 ∨ c.fifo.capacity < size ∨ c.closed then (-1, c)
  else
    match c.fifo.push message with
    | none => (0, c)
    | some fifo => (message.length, { c with fifo := fifo })

/-- The first message goes to the destination, or is lost where it is too long. -/
def remove (c : Channel) (maxSize : Option Int) : Int × Option Str × Channel :=
  match c.fifo.pop with
  | none => (0, none, c)
  | some (message, fifo) =>
      if maxSize.any fun limit => decide ((message.length : Int) > limit) then
        (-1, none, { c with fifo := fifo })
      else (message.length, some message, { c with fifo := fifo })

def call (c : Channel) : Call → Answer × Channel
  | .add src size _ =>
      let (bytes, c') := c.add size (src.take size.toNat)
      (.size bytes, c')
  | .remove maxSize =>
      let (bytes, dest, c') := c.remove maxSize
      (.removed bytes dest, c')
  | .signal producerId => (.done, { c with finished := insert producerId c.finished })
  | .emptyAndNoMoreAdd => (.flag (decide (c.fifo.words = [] ∧ c.closed)), c)

def calls (c : Channel) : List Call → List Answer × Channel
  | [] => ([], c)
  | a :: rest =>
      let (answer, c') := c.call a
      let (answers, last) := c'.calls rest
      (answer :: answers, last)

def create (queueSize numProducers : Nat) : Channel where
  fifo := .empty queueSize
  numProducers := numProducers

end Channel

/-- The queue stands for the channel. -/
structure Represents (q : SignalingQueue) (c : Channel) : Prop where
  consistent : q.Consistent
  capacity : c.fifo.capacity = q.queueSize
  words : c.fifo.words = q.contents
  numProducers : c.numProducers = q.numProducers
  nodup : q.finishedProducers.Nodup
  finished : c.finished = q.finishedProducers.toFinset

variable {q : SignalingQueue} {c : Channel}

theorem represents_create {queueSize : Nat} (h : 0 < queueSize) (numProducers : Nat) :
    Represents (.create queueSize numProducers) (.create queueSize numProducers) where
  consistent :=
    have hnew := SignalingQueue.consistent_new h
    ⟨hnew.size_pos, hnew.length_queue, hnew.laid⟩
  capacity := rfl
  words := rfl
  numProducers := rfl
  nodup := List.nodup_nil
  finished := rfl

theorem closed_iff (h : Represents q c) : c.closed ↔ q.noMoreAdd = true := by
  rw [Channel.closed, h.finished, h.numProducers, List.toFinset_card_of_nodup h.nodup,
    SignalingQueue.noMoreAdd, decide_eq_true_iff]

theorem total_eq (h : Represents q c) : c.fifo.total + q.freeSize = c.fifo.capacity := by
  rw [BoundedFifo.total, h.words, h.capacity, ← SignalingQueue.freeSize_add_total h.consistent,
    Nat.add_comm]

theorem rejects_iff (h : Represents q c) (size : Int) :
    q.rejects size = true ↔ size ≤ 0 ∨ c.fifo.capacity < size ∨ c.closed := by
  rw [SignalingQueue.rejects, h.capacity, closed_iff h]
  simp only [Bool.or_eq_true, decide_eq_true_iff, gt_iff_lt]
  tauto

theorem represents_store (h : Represents q c) {src : Str} {fifo : BoundedFifo Char}
    (hfree : src.length ≤ q.freeSize) (hcapacity : fifo.capacity = c.fifo.capacity)
    (hwords : fifo.words = c.fifo.words ++ [src]) :
    Represents (q.store src) { c with fifo := fifo } where
  consistent := SignalingQueue.consistent_store h.consistent hfree
  capacity := hcapacity.trans h.capacity
  words := by
    rw [SignalingQueue.contents_store h.consistent hfree, ← h.words]
    exact hwords
  numProducers := h.numProducers
  nodup := h.nodup
  finished := h.finished

theorem represents_add (h : Represents q c) {src : Str} {size : Int}
    (readable : size ≤ src.length) :
    (q.call (.add src size readable)).1 = (c.call (.add src size readable)).1 ∧
      Represents (q.call (.add src size readable)).2 (c.call (.add src size readable)).2 := by
  have htotal := total_eq h
  simp only [SignalingQueue.call, Channel.call, Channel.add, ← rejects_iff h]
  split_ifs with hrejects hfull
  · exact ⟨rfl, h⟩
  · have hlength : (src.take size.toNat).length = size.toNat := by
      rw [List.length_take]
      omega
    rw [BoundedFifo.push_of_lt (by omega)]
    exact ⟨rfl, h⟩
  · have hpos : 0 < size := by
      by_contra hle
      exact hrejects ((rejects_iff h size).mpr (Or.inl (not_lt.mp hle)))
    have hlength : (src.take size.toNat).length = size.toNat := by
      rw [List.length_take]
      omega
    have hfits : c.fifo.total + (src.take size.toNat).length ≤ c.fifo.capacity := by omega
    obtain ⟨fifo, hpush, hcapacity, hwords⟩ := BoundedFifo.push_of_le hfits
    rw [hpush]
    refine ⟨?_, represents_store h (by omega) hcapacity hwords⟩
    dsimp only
    rw [hlength, Int.toNat_of_nonneg hpos.le]

theorem represents_remove (h : Represents q c) (maxSize : Option Int) :
    (q.call (.remove maxSize)).1 = (c.call (.remove maxSize)).1 ∧
      Represents (q.call (.remove maxSize)).2 (c.call (.remove maxSize)).2 := by
  simp only [SignalingQueue.call, Channel.call, Channel.remove]
  rcases hcontents : q.contents with _ | ⟨message, rest⟩
  · rw [SignalingQueue.removeWithin_nil (SignalingQueue.contents_eq_nil.mp hcontents),
      BoundedFifo.pop_of_nil (h.words.trans hcontents)]
    exact ⟨rfl, h⟩
  · obtain ⟨left, hleft, hrest, hsame, hremove⟩ :=
      SignalingQueue.removeWithin_cons h.consistent hcontents maxSize
    obtain ⟨fifo, hpop, hcapacity, hwords⟩ :=
      BoundedFifo.pop_of_cons (h.words.trans hcontents)
    have hrepresents : Represents left { c with fifo := fifo } := by
      rw [hsame] at hleft hrest ⊢
      exact ⟨hleft, hcapacity.trans h.capacity, hwords.trans hrest.symm, h.numProducers, h.nodup,
        h.finished⟩
    rw [hremove, hpop]
    dsimp only
    split_ifs
    · exact ⟨rfl, hrepresents⟩
    · exact ⟨rfl, hrepresents⟩

theorem represents_signal (h : Represents q c) (producerId : Int) :
    Represents (q.signal producerId) { c with finished := insert producerId c.finished } where
  consistent := ⟨h.consistent.size_pos, h.consistent.length_queue, h.consistent.laid⟩
  capacity := h.capacity
  words := h.words
  numProducers := h.numProducers
  nodup := by
    rw [SignalingQueue.signal]
    dsimp only
    split_ifs with hmem
    · exact h.nodup
    · rw [← List.concat_eq_append]
      exact h.nodup.concat hmem
  finished := by
    rw [SignalingQueue.signal]
    dsimp only
    rw [h.finished]
    split_ifs with hmem
    · exact Finset.insert_eq_of_mem (List.mem_toFinset.mpr hmem)
    · rw [List.toFinset_append, List.toFinset_cons, List.toFinset_nil, Finset.union_comm]
      rfl

/-- Every call gets the same answer from both, and they stay in step. -/
theorem represents_call (h : Represents q c) (a : Call) :
    (q.call a).1 = (c.call a).1 ∧ Represents (q.call a).2 (c.call a).2 := by
  cases a with
  | add src size readable => exact represents_add h readable
  | remove maxSize => exact represents_remove h maxSize
  | signal producerId => exact ⟨rfl, represents_signal h producerId⟩
  | emptyAndNoMoreAdd =>
      refine ⟨?_, h⟩
      have hempty : c.fifo.words = [] ↔ q.messagePositions.length = 0 := by
        rw [h.words, SignalingQueue.contents_eq_nil, List.length_eq_zero_iff]
      have hclosed : c.closed ↔ q.finishedProducers.length ≥ q.numProducers := by
        rw [closed_iff h, SignalingQueue.noMoreAdd, decide_eq_true_iff]
      simp only [SignalingQueue.call, Channel.call, SignalingQueue.emptyAndNoMoreAdd, hempty,
        hclosed, Bool.decide_and]

theorem represents_calls (h : Represents q c) (as : List Call) :
    (q.calls as).1 = (c.calls as).1 ∧ Represents (q.calls as).2 (c.calls as).2 := by
  induction as generalizing q c with
  | nil => exact ⟨rfl, h⟩
  | cons a rest ih =>
      obtain ⟨hanswer, hnext⟩ := represents_call h a
      obtain ⟨hanswers, hlast⟩ := ih hnext
      exact ⟨congrArg₂ List.cons hanswer hanswers, hlast⟩

theorem queueSize_call (q : SignalingQueue) (a : Call) : (q.call a).2.queueSize = q.queueSize := by
  cases a with
  | add src size readable =>
      rw [SignalingQueue.call]
      split_ifs
      · rfl
      · rfl
      · rfl
  | remove maxSize =>
      rw [SignalingQueue.call, SignalingQueue.removeWithin]
      cases q.messagePositions with
      | nil => rfl
      | cons pos rest =>
          dsimp only
          split_ifs
          · rfl
          · rfl
  | signal producerId => rfl
  | emptyAndNoMoreAdd => rfl

theorem queueSize_calls (q : SignalingQueue) (as : List Call) :
    (q.calls as).2.queueSize = q.queueSize := by
  induction as generalizing q with
  | nil => rfl
  | cons a rest ih => exact (ih (q.call a).2).trans (queueSize_call q a)

/-- A queue of any positive size answers every sequence of calls as the channel
does; what is stored is what the channel holds, and with the free bytes it fills
the queue. No position reaches the end of the buffer. -/
theorem calls_refine_channel {queueSize : Nat} (hsize : 0 < queueSize) (numProducers : Nat)
    (as : List Call) :
    let result := (SignalingQueue.create queueSize numProducers).calls as
    let spec := (Channel.create queueSize numProducers).calls as
    result.1 = spec.1 ∧ result.2.contents = spec.2.fifo.words ∧
      result.2.freeSize + (result.2.contents.map List.length).sum = queueSize ∧
      result.2.writePointer < queueSize := by
  obtain ⟨hanswers, hlast⟩ := represents_calls (represents_create hsize numProducers) as
  have hqueueSize : ((SignalingQueue.create queueSize numProducers).calls as).2.queueSize =
      queueSize := queueSize_calls _ as
  refine ⟨hanswers, hlast.words.symm, ?_, ?_⟩
  · rw [SignalingQueue.freeSize_add_total hlast.consistent, hqueueSize]
  · exact hlast.consistent.pointer_lt.trans_eq hqueueSize

/-- The third message goes round the end of the buffer, after the second found
no room and the first did not fit its destination. -/
def wrappingCalls : List Call :=
  [addString "ab".toList, addString "cd".toList, .remove (some 1), addString "cd".toList,
    .remove none, .signal 0, addString "e".toList, .emptyAndNoMoreAdd]

theorem wrappingCalls_refine :
    ((SignalingQueue.create 3 1).calls wrappingCalls).1 =
        [.size 2, .size 0, .removed (-1) none, .size 2, .removed 2 (some "cd".toList), .done,
          .size (-1), .flag true] ∧
      ((SignalingQueue.create 3 1).calls wrappingCalls).1 =
        ((Channel.create 3 1).calls wrappingCalls).1 :=
  ⟨by decide +kernel, (calls_refine_channel (by decide) 1 wrappingCalls).1⟩

end FastDCS.QueueCalls
