import Mathlib.Algebra.GroupWithZero.Nat
import Mathlib.Data.List.Basic

/-!
Blocks in a circular buffer: reading and writing across its end, and blocks
laid one behind the other, which a further write leaves alone.
-/

namespace FastDCS.CircularBuffer

universe u

variable {α : Type u}

def copyTo (buffer : List α) (start : Nat) (src : List α) : List α :=
  buffer.take start ++ src ++ buffer.drop (start + src.length)

def slice (buffer : List α) (start len : Nat) : List α := (buffer.drop start).take len

/-- Read a block that may go on at the head of the buffer. -/
def readBlock (buffer : List α) (size start len : Nat) : List α :=
  if start + len ≤ size then slice buffer start len
  else slice buffer start (size - start) ++ slice buffer 0 (len - (size - start))

/-- Write a block that may go on at the head of the buffer. -/
def writeBlock (buffer : List α) (size start : Nat) (src : List α) : List α :=
  if start + src.length ≤ size then copyTo buffer start src
  else copyTo (copyTo buffer start (src.take (size - start))) 0 (src.drop (size - start))

section Blocks

variable {buffer src : List α} {size start len : Nat}

theorem length_copyTo (h : start + src.length ≤ buffer.length) :
    (copyTo buffer start src).length = buffer.length := by
  simp only [copyTo, List.length_append, List.length_take, List.length_drop]
  omega

theorem getElem?_copyTo (h : start ≤ buffer.length) (i : Nat) :
    (copyTo buffer start src)[i]? =
      if i < start then buffer[i]?
      else if i < start + src.length then src[i - start]? else buffer[i]? := by
  have htake : (buffer.take start).length = start := by simp [h]
  rw [copyTo, List.append_assoc]
  split_ifs with hbefore hinside
  · rw [List.getElem?_append_left (by omega), List.getElem?_take_of_lt hbefore]
  · rw [List.getElem?_append_right (by omega), htake, List.getElem?_append_left (by omega)]
  · rw [List.getElem?_append_right (by omega), htake, List.getElem?_append_right (by omega),
      List.getElem?_drop]
    congr 1
    omega

theorem length_slice (h : start + len ≤ buffer.length) : (slice buffer start len).length = len := by
  simp only [slice, List.length_take, List.length_drop]
  omega

theorem getElem?_slice {k : Nat} (h : k < len) :
    (slice buffer start len)[k]? = buffer[start + k]? := by
  rw [slice, List.getElem?_take_of_lt h, List.getElem?_drop]

theorem length_readBlock (hbuffer : buffer.length = size) (hstart : start < size)
    (hlen : len ≤ size) : (readBlock buffer size start len).length = len := by
  rw [readBlock]
  split_ifs with hfits
  · exact length_slice (by omega)
  · rw [List.length_append, length_slice (by omega), length_slice (by omega)]
    omega

/-- The first of the two copies fills the buffer up to its end. -/
theorem length_firstCopy (hbuffer : buffer.length = size) (hstart : start < size)
    (hover : size < start + src.length) :
    (src.take (size - start)).length = size - start ∧
      (copyTo buffer start (src.take (size - start))).length = size := by
  have hfirst : (src.take (size - start)).length = size - start := by
    rw [List.length_take]
    omega
  refine ⟨hfirst, ?_⟩
  rw [length_copyTo (by omega), hbuffer]

theorem length_writeBlock (hbuffer : buffer.length = size) (hstart : start < size)
    (hsrc : src.length ≤ size) : (writeBlock buffer size start src).length = size := by
  rw [writeBlock]
  split_ifs with hfits
  · rw [length_copyTo (by omega), hbuffer]
  · obtain ⟨_, hcopied⟩ := length_firstCopy hbuffer hstart (Nat.lt_of_not_le hfits)
    rw [length_copyTo (by rw [List.length_drop]; omega), hcopied]

theorem add_mod_size {k : Nat} (hstart : start < size) (hk : k < size) :
    (start + k) % size = if start + k < size then start + k else start + k - size := by
  split_ifs with h
  · exact Nat.mod_eq_of_lt h
  · rw [Nat.mod_eq_sub_mod (by omega)]
    exact Nat.mod_eq_of_lt (by omega)

theorem getElem?_readBlock (hbuffer : buffer.length = size) (hstart : start < size)
    (hlen : len ≤ size) {k : Nat} (hk : k < len) :
    (readBlock buffer size start len)[k]? = buffer[(start + k) % size]? := by
  rw [readBlock, add_mod_size hstart (by omega)]
  split_ifs with hfits hwrap hwrap
  · exact getElem?_slice hk
  · omega
  · rw [List.getElem?_append_left (by rw [length_slice (by omega)]; omega),
      getElem?_slice (by omega)]
  · have hfirst : (slice buffer start (size - start)).length = size - start :=
      length_slice (by omega)
    rw [List.getElem?_append_right (by omega), hfirst, getElem?_slice (by omega)]
    congr 1
    omega

theorem getElem?_writeBlock (hbuffer : buffer.length = size) (hstart : start < size)
    (hsrc : src.length ≤ size) {k : Nat} (hk : k < size) :
    (writeBlock buffer size start src)[(start + k) % size]? =
      if k < src.length then src[k]? else buffer[(start + k) % size]? := by
  rw [writeBlock, add_mod_size hstart hk]
  rcases Nat.lt_or_ge size (start + src.length) with hover | hfits
  · obtain ⟨hfirst, hcopied⟩ := length_firstCopy hbuffer hstart hover
    rw [if_neg (by omega), getElem?_copyTo (Nat.zero_le _), getElem?_copyTo (by omega), hfirst,
      List.length_drop, List.getElem?_drop]
    split_ifs with hwrap <;> try omega
    · rw [List.getElem?_take_of_lt (by omega)]
      congr 1
      omega
    · congr 1
      omega
    · rfl
  · rw [if_pos hfits, getElem?_copyTo (by omega)]
    split_ifs <;> first | omega | rfl | (congr 1; omega)

end Blocks

section Laid

/-- Blocks laid one behind the other, from the first place on to the place where
the next block goes. Places count on past the end of the buffer. -/
def Laid (size : Nat) : Nat → List (Nat × Nat) → Nat → Prop
  | first, [], next => first = next
  | first, (start, len) :: rest, next => start = first % size ∧ Laid size (first + len) rest next

def blocks (buffer : List α) (size : Nat) (positions : List (Nat × Nat)) : List (List α) :=
  positions.map fun position => readBlock buffer size position.1 position.2

variable {buffer src : List α} {size first next len : Nat} {positions : List (Nat × Nat)}

theorem first_le_next (h : Laid size first positions next) : first ≤ next := by
  induction positions generalizing first with
  | nil => exact Nat.le_of_eq h
  | cons position rest ih => exact Nat.le_trans (Nat.le_add_right _ _) (ih h.2)

theorem first_add_total (h : Laid size first positions next) :
    first + (positions.map Prod.snd).sum = next := by
  induction positions generalizing first with
  | nil => exact h
  | cons position rest ih =>
      have hrest := ih h.2
      rw [List.map_cons, List.sum_cons]
      omega

theorem laid_concat (h : Laid size first positions next) (len : Nat) :
    Laid size first (positions ++ [(next % size, len)]) (next + len) := by
  induction positions generalizing first with
  | nil =>
      obtain rfl : first = next := h
      exact ⟨rfl, rfl⟩
  | cons position rest ih => exact ⟨h.1, ih h.2⟩

theorem readBlock_writeBlock_self (hbuffer : buffer.length = size) (hsize : 0 < size)
    (hsrc : src.length ≤ size) :
    readBlock (writeBlock buffer size (next % size) src) size (next % size) src.length = src := by
  have hstart : next % size < size := Nat.mod_lt _ hsize
  have hwritten := length_writeBlock hbuffer hstart hsrc
  refine List.ext_getElem? fun k => ?_
  rcases Nat.lt_or_ge k src.length with hk | hk
  · rw [getElem?_readBlock hwritten hstart hsrc hk,
      getElem?_writeBlock hbuffer hstart hsrc (by omega), if_pos hk]
  · rw [List.getElem?_eq_none (by rw [length_readBlock hwritten hstart hsrc]; exact hk),
      List.getElem?_eq_none hk]

/-- A write leaves the blocks before it alone, unless it reaches round to them. -/
theorem readBlock_writeBlock_of_before (hbuffer : buffer.length = size) (hsize : 0 < size)
    (hbefore : first + len ≤ next) (hroom : next + src.length ≤ first + size) :
    readBlock (writeBlock buffer size (next % size) src) size (first % size) len =
      readBlock buffer size (first % size) len := by
  have hfirst : first % size < size := Nat.mod_lt _ hsize
  have hnext : next % size < size := Nat.mod_lt _ hsize
  have hwritten : (writeBlock buffer size (next % size) src).length = size :=
    length_writeBlock hbuffer hnext (by omega)
  refine List.ext_getElem? fun k => ?_
  rcases Nat.lt_or_ge k len with hk | hk
  · rw [getElem?_readBlock hwritten hfirst (by omega) hk,
      getElem?_readBlock hbuffer hfirst (by omega) hk]
    -- seen from the place of the write, the place is outside what is written
    have hplace : (first % size + k) % size =
        (next % size + (first + k + size - next)) % size := by
      rw [Nat.mod_add_mod, Nat.mod_add_mod, Nat.add_sub_cancel' (by omega), Nat.add_mod_right]
    rw [hplace, getElem?_writeBlock hbuffer hnext (by omega) (by omega), if_neg (by omega)]
  · rw [List.getElem?_eq_none (by rw [length_readBlock hwritten hfirst (by omega)]; exact hk),
      List.getElem?_eq_none (by rw [length_readBlock hbuffer hfirst (by omega)]; exact hk)]

theorem blocks_writeBlock (hbuffer : buffer.length = size) (hsize : 0 < size)
    (h : Laid size first positions next) (hroom : next + src.length ≤ first + size) :
    blocks (writeBlock buffer size (next % size) src) size positions =
      blocks buffer size positions := by
  induction positions generalizing first with
  | nil => rfl
  | cons position rest ih =>
      obtain ⟨hstart, hrest⟩ := h
      have hbefore := first_le_next hrest
      rw [blocks, blocks, List.map_cons, List.map_cons, hstart,
        readBlock_writeBlock_of_before hbuffer hsize hbefore hroom]
      rw [← blocks, ← blocks, ih hrest (by omega)]

theorem lengths_blocks (hbuffer : buffer.length = size) (hsize : 0 < size)
    (h : Laid size first positions next) (hroom : next ≤ first + size) :
    (blocks buffer size positions).map List.length = positions.map Prod.snd := by
  induction positions generalizing first with
  | nil => rfl
  | cons position rest ih =>
      obtain ⟨hstart, hrest⟩ := h
      have hbefore := first_le_next hrest
      have hlength : (readBlock buffer size position.1 position.2).length = position.2 :=
        length_readBlock hbuffer (hstart ▸ Nat.mod_lt _ hsize) (by omega)
      rw [blocks, List.map_cons, List.map_cons, List.map_cons, hlength]
      rw [← blocks, ih hrest (by omega)]

end Laid

end FastDCS.CircularBuffer
