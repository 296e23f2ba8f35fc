import Mathlib.Algebra.BigOperators.Group.List.Basic
import Mathlib.Algebra.GroupWithZero.Nat

/-!
A first-in first-out list of words whose total length has a bound.
-/

namespace FastDCS

universe u

/-- Words in the order of their arrival. -/
@[ext] structure BoundedFifo (α : Type u) where
  capacity : Nat
  words : List (List α)
  total_le : (words.map List.length).sum ≤ capacity

namespace BoundedFifo

variable {α : Type u}

def empty (capacity : Nat) : BoundedFifo α where
  capacity := capacity
  words := []
  total_le := Nat.zero_le _

def total (f : BoundedFifo α) : Nat := (f.words.map List.length).sum

/-- Put a word behind the others, where there is room for it. -/
def push (f : BoundedFifo α) (word : List α) : Option (BoundedFifo α) :=
  if h : f.total + word.length ≤ f.capacity then
    some
      { capacity := f.capacity
        words := f.words ++ [word]
        total_le := by simpa [total] using h }
  else none

/-- Take the first word. -/
def pop (f : BoundedFifo α) : Option (List α × BoundedFifo α) :=
  match h : f.words with
  | [] => none
  | word :: rest =>
      some (word,
        { capacity := f.capacity
          words := rest
          total_le := by
            have hle := f.total_le
            rw [h, List.map_cons, List.sum_cons] at hle
            exact Nat.le_trans (Nat.le_add_left _ _) hle })

variable {f : BoundedFifo α}

theorem push_of_le {word : List α} (h : f.total + word.length ≤ f.capacity) :
    ∃ g, f.push word = some g ∧ g.capacity = f.capacity ∧ g.words = f.words ++ [word] :=
  ⟨_, dif_pos h, rfl, rfl⟩

theorem push_of_lt {word : List α} (h : f.capacity < f.total + word.length) :
    f.push word = none := dif_neg (Nat.not_le.mpr h)

theorem pop_of_nil (h : f.words = []) : f.pop = none := by
  unfold pop
  split
  · rfl
  · next heq => rw [h] at heq; cases heq

theorem pop_of_cons {word : List α} {rest : List (List α)} (h : f.words = word :: rest) :
    ∃ g, f.pop = some (word, g) ∧ g.capacity = f.capacity ∧ g.words = rest := by
  unfold pop
  split
  · next heq => rw [h] at heq; cases heq
  · next word' rest' heq =>
      rw [h] at heq
      obtain ⟨rfl, rfl⟩ := List.cons.inj heq
      exact ⟨_, rfl, rfl, rfl⟩

end BoundedFifo

end FastDCS
