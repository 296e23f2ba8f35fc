import FastDCS.CircularBuffer
import FastDCS.Strings

/-!
`SignalingQueue`: the circular queue of messages between two threads, and the
list of messages it stands for. Both methods take the lock of the object; where
they wait on a condition variable there is no result.
-/

namespace FastDCS

open FastDCS.Strings
open FastDCS.CircularBuffer

structure SignalingQueue where
  queue : Str
  queueSize : Nat
  freeSize : Nat
  writePointer : Nat := 0
  numProducers : Nat := 1
  messagePositions : List (Nat × Nat) := []
  finishedProducers : List Int := []

namespace SignalingQueue

def new (queueSize : Nat) : SignalingQueue where
  queue := List.replicate queueSize (Char.ofNat 0)
  queueSize := queueSize
  freeSize := queueSize

/-- `Add` that blocks: its result and the queue, or `none` while it waits. -/
def add (q : SignalingQueue) (src : Str) : Option (Int × SignalingQueue) :=
  let size := src.length
  if size > q.queueSize then some (-1, q)
  else if size = 0 then some (-1, q)
  else if q.finishedProducers.length ≥ q.numProducers then some (-1, q)
  else if size > q.freeSize then none
  else if q.writePointer + size ≤ q.queueSize then
    some (size,
      { q with
        messagePositions := q.messagePositions ++ [(q.writePointer, size)]
        freeSize := q.freeSize - size
        queue := copyTo q.queue q.writePointer src
        writePointer := if q.writePointer + size = q.queueSize then 0 else q.writePointer + size })
  else
    let sizePartial := q.queueSize - q.writePointer
    some (size,
      { q with
        messagePositions := q.messagePositions ++ [(q.writePointer, size)]
        freeSize := q.freeSize - size
        queue := copyTo (copyTo q.queue q.writePointer (src.take sizePartial)) 0
          (src.drop sizePartial)
        writePointer := size - sizePartial })

/-- `Remove` of the first message, if there is one. -/
def removeFront (q : SignalingQueue) : Option (Str × SignalingQueue) :=
  match q.messagePositions with
  | [] => none
  | pos :: rest =>
      let dest :=
        if pos.1 + pos.2 ≤ q.queueSize then slice q.queue pos.1 pos.2
        else
          let sizePartial := q.queueSize - pos.1
          slice q.queue pos.1 sizePartial ++ slice q.queue 0 (pos.2 - sizePartial)
      some (dest, { q with freeSize := q.freeSize + pos.2, messagePositions := rest })

/-- `Remove` that blocks: it returns without a message only once all producers
have finished. -/
def remove (q : SignalingQueue) : Option (Str × SignalingQueue) :=
  match q.removeFront with
  | some r => some r
  | none => if q.finishedProducers.length ≥ q.numProducers then some ([], q) else none

def emptyAndNoMoreAdd (q : SignalingQueue) : Bool :=
  decide (q.messagePositions.length = 0) &&
    decide (q.finishedProducers.length ≥ q.numProducers)

/-- All producers have finished. -/
def noMoreAdd (q : SignalingQueue) : Bool :=
  decide (q.finishedProducers.length ≥ q.numProducers)

/-- `Add` returns -1 before it looks for room. -/
def rejects (q : SignalingQueue) (size : Int) : Bool :=
  decide (size > q.queueSize) || decide (size ≤ 0) || q.noMoreAdd

/-- `Add` behind its loop: the message is written where the write pointer
stands. -/
def store (q : SignalingQueue) (src : Str) : SignalingQueue :=
  { q with
    messagePositions := q.messagePositions ++ [(q.writePointer, src.length)]
    freeSize := q.freeSize - src.length
    queue := writeBlock q.queue q.queueSize q.writePointer src
    writePointer :=
      if q.writePointer + src.length ≤ q.queueSize then
        if q.writePointer + src.length = q.queueSize then 0 else q.writePointer + src.length
      else src.length - (q.queueSize - q.writePointer) }

/-- Both overloads of `Remove` behind their loop: what they return, what they
write to `dest` and the queue they leave. Only the first overload has a limit. -/
def removeWithin (maxSize : Option Int) (q : SignalingQueue) :
    Option (Int × Option Str × SignalingQueue) :=
  match q.messagePositions with
  | [] => none
  | pos :: rest =>
      let left := { q with freeSize := q.freeSize + pos.2, messagePositions := rest }
      if maxSize.any fun limit => decide ((pos.2 : Int) > limit) then some (-1, none, left)
      else some (pos.2, some (readBlock q.queue q.queueSize pos.1 pos.2), left)

def signal (q : SignalingQueue) (producerId : Int) : SignalingQueue :=
  { q with
    finishedProducers :=
      if producerId ∈ q.finishedProducers then q.finishedProducers
      else q.finishedProducers ++ [producerId] }

def contents (q : SignalingQueue) : List Str := blocks q.queue q.queueSize q.messagePositions

/-- The messages lie one behind the other in front of the write pointer, and the
rest of the buffer is free. -/
structure Consistent (q : SignalingQueue) : Prop where
  size_pos : 0 < q.queueSize
  length_queue : q.queue.length = q.queueSize
  laid : ∃ first next, Laid q.queueSize first q.messagePositions next ∧
    q.writePointer = next % q.queueSize ∧ next + q.freeSize = first + q.queueSize

/-- A consistent queue to which messages can still be added. -/
structure WellFormed (q : SignalingQueue) : Prop where
  size_pos : 0 < q.queueSize
  length_queue : q.queue.length = q.queueSize
  producing : q.finishedProducers.length < q.numProducers
  laid : ∃ first next, Laid q.queueSize first q.messagePositions next ∧
    q.writePointer = next % q.queueSize ∧ next + q.freeSize = first + q.queueSize

theorem consistent_new {queueSize : Nat} (h : 0 < queueSize) : (new queueSize).Consistent where
  size_pos := h
  length_queue := List.length_replicate
  laid := ⟨0, 0, rfl, (Nat.zero_mod _).symm, rfl⟩

variable {q : SignalingQueue}

theorem Consistent.wellFormed (h : q.Consistent)
    (hproducing : q.finishedProducers.length < q.numProducers) : q.WellFormed :=
  ⟨h.size_pos, h.length_queue, hproducing, h.laid⟩

theorem WellFormed.consistent (h : q.WellFormed) : q.Consistent :=
  ⟨h.size_pos, h.length_queue, h.laid⟩

theorem wellFormed_new {queueSize : Nat} (h : 0 < queueSize) : (new queueSize).WellFormed :=
  (consistent_new h).wellFormed Nat.one_pos

theorem Consistent.pointer_lt (hq : q.Consistent) : q.writePointer < q.queueSize := by
  obtain ⟨first, next, _, hpointer, _⟩ := hq.laid
  rw [hpointer]
  exact Nat.mod_lt _ hq.size_pos

theorem Consistent.freeSize_le (hq : q.Consistent) : q.freeSize ≤ q.queueSize := by
  obtain ⟨first, next, hlaid, _, hroom⟩ := hq.laid
  have hle := first_le_next hlaid
  omega

theorem lengths_contents (hq : q.Consistent) :
    q.contents.map List.length = q.messagePositions.map Prod.snd := by
  obtain ⟨first, next, hlaid, _, hroom⟩ := hq.laid
  rw [contents, lengths_blocks hq.length_queue hq.size_pos hlaid (by omega)]

/-- What is free and what is stored fill the queue. -/
theorem freeSize_add_total (hq : q.Consistent) :
    q.freeSize + (q.contents.map List.length).sum = q.queueSize := by
  rw [lengths_contents hq]
  obtain ⟨first, next, hlaid, _, hroom⟩ := hq.laid
  have htotal := first_add_total hlaid
  omega

/-- The write pointer moves on past the message, round the end of the buffer. -/
theorem writePointer_store (hq : q.Consistent) {src : Str} (hsize : src.length ≤ q.queueSize) :
    (q.store src).writePointer = (q.writePointer + src.length) % q.queueSize := by
  have hpointer := hq.pointer_lt
  rw [store]
  dsimp only
  split_ifs with hfits hfull
  · rw [hfull, Nat.mod_self]
  · rw [Nat.mod_eq_of_lt (by omega)]
  · rw [Nat.mod_eq_sub_mod (by omega), Nat.mod_eq_of_lt (by omega)]
    omega

theorem consistent_store (hq : q.Consistent) {src : Str} (hfree : src.length ≤ q.freeSize) :
    (q.store src).Consistent := by
  have hsize := hfree.trans hq.freeSize_le
  have hpointer := writePointer_store hq hsize
  obtain ⟨first, next, hlaid, hwrite, hroom⟩ := hq.laid
  refine ⟨hq.size_pos, length_writeBlock hq.length_queue hq.pointer_lt hsize, first,
    next + src.length, ?_, ?_, ?_⟩
  · rw [store, hwrite]
    exact laid_concat hlaid _
  · rw [hpointer, hwrite, Nat.mod_add_mod]
    rfl
  · change next + src.length + (q.freeSize - src.length) = first + q.queueSize
    omega

theorem contents_store (hq : q.Consistent) {src : Str} (hfree : src.length ≤ q.freeSize) :
    (q.store src).contents = q.contents ++ [src] := by
  have hsize := hfree.trans hq.freeSize_le
  obtain ⟨first, next, hlaid, hwrite, hroom⟩ := hq.laid
  simp only [contents, blocks, store, List.map_append, List.map_singleton, hwrite]
  rw [readBlock_writeBlock_self hq.length_queue hq.size_pos hsize]
  rw [← blocks, ← blocks, blocks_writeBlock hq.length_queue hq.size_pos hlaid (by omega)]

theorem removeWithin_nil {maxSize : Option Int} (h : q.messagePositions = []) :
    q.removeWithin maxSize = none := by
  rw [removeWithin, h]

theorem contents_eq_nil : q.contents = [] ↔ q.messagePositions = [] := List.map_eq_nil_iff

/-- Removing takes the first message, whether it fits the destination or not. -/
theorem removeWithin_cons (hq : q.Consistent) {message : Str} {rest : List Str}
    (h : q.contents = message :: rest) (maxSize : Option Int) :
    ∃ left : SignalingQueue, left.Consistent ∧ left.contents = rest ∧
      left = { q with freeSize := left.freeSize, messagePositions := left.messagePositions } ∧
      q.removeWithin maxSize =
        if maxSize.any fun limit => decide ((message.length : Int) > limit) then
          some ((-1 : Int), none, left)
        else some ((message.length : Int), some message, left) := by
  obtain ⟨first, next, hlaid, hpointer, hroom⟩ := hq.laid
  have hlengths := lengths_contents hq
  cases hpositions : q.messagePositions with
  | nil =>
      rw [contents_eq_nil.mpr hpositions] at h
      cases h
  | cons pos positions =>
      rw [h, hpositions] at hlengths
      have hlength : message.length = pos.2 := (List.cons.inj hlengths).1
      rw [contents, hpositions] at h
      obtain ⟨hmessage, hrest⟩ := List.cons.inj h
      rw [hpositions] at hlaid
      refine ⟨{ q with freeSize := q.freeSize + pos.2, messagePositions := positions },
        ⟨hq.size_pos, hq.length_queue, first + pos.2, next, hlaid.2, hpointer, ?_⟩, hrest, rfl, ?_⟩
      · dsimp only
        omega
      · simp only [removeWithin, hpositions, hmessage, hlength]

/-- `Add` on an open queue with room stores the message. -/
theorem add_eq_store {src : Str} (hne : src ≠ []) (hq : q.WellFormed)
    (hfree : src.length ≤ q.freeSize) : q.add src = some ((src.length : Int), q.store src) := by
  have hpos : src.length ≠ 0 := fun h => hne (List.length_eq_zero_iff.mp h)
  have hsize := hfree.trans hq.consistent.freeSize_le
  rw [add, if_neg (Nat.not_lt.mpr hsize), if_neg hpos, if_neg (Nat.not_le.mpr hq.producing),
    if_neg (Nat.not_lt.mpr hfree), store, writeBlock]
  rcases Nat.lt_or_ge q.queueSize (q.writePointer + src.length) with hover | hfits
  · rw [if_neg (Nat.not_le.mpr hover), if_neg (Nat.not_le.mpr hover),
      if_neg (Nat.not_le.mpr hover)]
  · rw [if_pos hfits, if_pos hfits, if_pos hfits]

theorem add_eq_none {src : Str} (hsize : src.length ≤ q.queueSize) (hne : src ≠ [])
    (hq : q.WellFormed) (hfull : q.freeSize < src.length) : q.add src = none := by
  have hpos : src.length ≠ 0 := fun h => hne (List.length_eq_zero_iff.mp h)
  rw [add, if_neg (Nat.not_lt.mpr hsize), if_neg hpos, if_neg (Nat.not_le.mpr hq.producing),
    if_pos hfull]

theorem add_spec {src : Str} (hne : src ≠ []) (hq : q.WellFormed)
    (hfree : src.length ≤ q.freeSize) :
    ∃ q', q.add src = some ((src.length : Int), q') ∧ q'.WellFormed ∧
      q'.contents = q.contents ++ [src] ∧ q'.queueSize = q.queueSize :=
  ⟨q.store src, add_eq_store hne hq hfree,
    (consistent_store hq.consistent hfree).wellFormed hq.producing,
    contents_store hq.consistent hfree, rfl⟩

theorem removeFront_nil (h : q.contents = []) : q.removeFront = none := by
  rw [removeFront, contents_eq_nil.mp h]

theorem removeFront_cons {message : Str} {rest : List Str} (hq : q.Consistent)
    (h : q.contents = message :: rest) :
    ∃ left : SignalingQueue, q.removeFront = some (message, left) ∧ left.Consistent ∧
      left.contents = rest ∧ left =
        { q with freeSize := left.freeSize, messagePositions := left.messagePositions } := by
  obtain ⟨left, hleft, hrest, hsame, hremove⟩ := removeWithin_cons hq h none
  cases hpositions : q.messagePositions with
  | nil =>
      rw [contents_eq_nil.mpr hpositions] at h
      cases h
  | cons pos positions =>
      simp only [removeWithin, hpositions] at hremove
      obtain ⟨_, hmessage, rfl⟩ : _ ∧ _ ∧ _ = left := by simpa using hremove
      refine ⟨_, ?_, hleft, hrest, rfl⟩
      simp only [removeFront, hpositions, ← hmessage]
      rfl

theorem removeFront_spec {message : Str} {rest : List Str} (hq : q.WellFormed)
    (h : q.contents = message :: rest) :
    ∃ q', q.removeFront = some (message, q') ∧ q'.WellFormed ∧ q'.contents = rest ∧
      q'.queueSize = q.queueSize := by
  obtain ⟨left, hremove, hleft, hrest, hsame⟩ := removeFront_cons hq.consistent h
  refine ⟨left, hremove, hleft.wellFormed ?_, hrest, ?_⟩
  · rw [hsame]
    exact hq.producing
  · rw [hsame]

end SignalingQueue

end FastDCS
