import Mathlib.Algebra.BigOperators.Group.List.Basic
import Mathlib.Algebra.GroupWithZero.Nat
import Mathlib.Data.List.Infix

/-!
Occurrences of a word in a list: the first one, and the pieces the list falls
into when the occurrences are taken from the left without overlap.
-/

namespace FastDCS.WordSearch

universe u

variable {α : Type u} [DecidableEq α] {word l : List α}

/-- The first index at which the word occurs. -/
def firstOccurrence (word : List α) : List α → Option Nat
  | [] => if word = [] then some 0 else none
  | x :: rest =>
      if word <+: x :: rest then some 0 else (firstOccurrence word rest).map (· + 1)

theorem firstOccurrence_eq_some {i : Nat} (h : firstOccurrence word l = some i) :
    i ≤ l.length ∧ word <+: l.drop i ∧ ∀ j < i, ¬word <+: l.drop j := by
  induction l generalizing i with
  | nil =>
      rw [firstOccurrence] at h
      split_ifs at h with hword
      obtain rfl := Option.some.inj h
      exact ⟨le_refl _, by simp [hword], fun j hj => absurd hj (Nat.not_lt_zero j)⟩
  | cons x rest ih =>
      rw [firstOccurrence] at h
      split_ifs at h with hbegins
      · obtain rfl := Option.some.inj h
        exact ⟨Nat.zero_le _, hbegins, fun j hj => absurd hj (Nat.not_lt_zero j)⟩
      · obtain ⟨k, hk, rfl⟩ := Option.map_eq_some_iff.mp h
        obtain ⟨hle, hoccurs, hfirst⟩ := ih hk
        refine ⟨Nat.succ_le_succ hle, hoccurs, fun j hj => ?_⟩
        cases j with
        | zero => exact hbegins
        | succ j => exact hfirst j (Nat.lt_of_succ_lt_succ hj)

/-- The list at its first occurrence of the word. -/
theorem split_of_eq_some {i : Nat} (h : firstOccurrence word l = some i) :
    l = l.take i ++ word ++ l.drop (i + word.length) := by
  obtain ⟨_, hoccurs, _⟩ := firstOccurrence_eq_some h
  have hdrop := List.prefix_append_drop hoccurs
  rw [List.drop_drop] at hdrop
  rw [List.append_assoc, ← hdrop, List.take_append_drop]

/-- The empty word occurs everywhere. -/
theorem firstOccurrence_nil (l : List α) : firstOccurrence [] l = some 0 := by
  cases l with
  | nil => rfl
  | cons x rest => simp [firstOccurrence]

/-- The pieces in front of, between and behind the occurrences. The counter is
the number of elements of the last occurrence that are still to be skipped. -/
def cut (word : List α) : Nat → List α → List (List α)
  | _, [] => [[]]
  | skip + 1, _ :: rest => cut word skip rest
  | 0, x :: rest =>
      if word <+: x :: rest then [] :: cut word (word.length - 1) rest
      else (cut word 0 rest).modifyHead (x :: ·)

theorem cut_skip (skip : Nat) (l : List α) : cut word skip l = cut word 0 (l.drop skip) := by
  induction skip generalizing l with
  | zero => rfl
  | succ skip ih =>
      cases l with
      | nil => simp [cut]
      | cons x rest => rw [cut, ih, List.drop_succ_cons]

theorem cut_of_eq_none (h : firstOccurrence word l = none) :
    cut word 0 l = [l] := by
  induction l with
  | nil => rfl
  | cons x rest ih =>
      rw [firstOccurrence] at h
      split_ifs at h with hbegins
      rw [cut, if_neg hbegins, ih (Option.map_eq_none_iff.mp h)]
      rfl

/-- The first piece ends at the first occurrence, and the next one begins behind
it. -/
theorem cut_of_eq_some (hword : word ≠ []) {i : Nat} (h : firstOccurrence word l = some i) :
    cut word 0 l = l.take i :: cut word 0 (l.drop (i + word.length)) := by
  induction l generalizing i with
  | nil =>
      rw [firstOccurrence, if_neg hword] at h
      cases h
  | cons x rest ih =>
      rw [firstOccurrence] at h
      split_ifs at h with hbegins
      · obtain rfl := Option.some.inj h
        obtain ⟨n, hn⟩ := Nat.exists_eq_succ_of_ne_zero (List.length_pos_iff.mpr hword).ne'
        rw [cut, if_pos hbegins, cut_skip, hn]
        simp
      · obtain ⟨k, hk, rfl⟩ := Option.map_eq_some_iff.mp h
        rw [cut, if_neg hbegins, ih hk, List.modifyHead_cons, List.take_succ_cons,
          Nat.add_right_comm, List.drop_succ_cons]

theorem cut_ne_nil (word l : List α) (skip : Nat) : cut word skip l ≠ [] := by
  induction l generalizing skip with
  | nil => simp [cut]
  | cons x rest ih =>
      cases skip with
      | succ skip => exact ih skip
      | zero =>
          rw [cut]
          split_ifs
          · exact List.cons_ne_nil _ _
          · exact fun hnil => ih 0 (List.modifyHead_eq_nil_iff.mp hnil)

omit [DecidableEq α] in
theorem length_intercalate (separator : List α) (pieces : List (List α)) :
    (separator.intercalate pieces).length =
      (pieces.map List.length).sum + separator.length * (pieces.length - 1) := by
  induction pieces with
  | nil => simp
  | cons piece rest ih =>
      rcases eq_or_ne rest [] with rfl | hrest
      · simp
      · obtain ⟨n, hn⟩ := Nat.exists_eq_succ_of_ne_zero (List.length_pos_iff.mpr hrest).ne'
        rw [List.intercalate_cons_of_ne_nil hrest, List.length_append, List.length_append, ih]
        simp only [List.map_cons, List.sum_cons, List.length_cons, hn]
        rw [Nat.succ_sub_one, Nat.succ_eq_add_one, Nat.add_sub_cancel, Nat.mul_succ]
        omega

omit [DecidableEq α] in
/-- Two pieces and what is between them give the separator. -/
theorem separator_injective {s t : List α} {piece : List α} {rest : List (List α)}
    (hrest : rest ≠ [])
    (h : s.intercalate (piece :: rest) = t.intercalate (piece :: rest)) : s = t := by
  have hlength := congrArg List.length h
  rw [length_intercalate, length_intercalate] at hlength
  have hpos := List.length_pos_iff.mpr hrest
  have heq : s.length = t.length := by
    refine Nat.eq_of_mul_eq_mul_right hpos ?_
    simpa using hlength
  rw [List.intercalate_cons_of_ne_nil hrest, List.intercalate_cons_of_ne_nil hrest,
    List.append_assoc, List.append_assoc] at h
  exact (List.append_inj (List.append_cancel_left h) heq).1

/-- Putting the word back between the pieces gives the list. -/
theorem intercalate_cut (hword : word ≠ []) (l : List α) :
    word.intercalate (cut word 0 l) = l := by
  induction hlength : l.length using Nat.strongRecOn generalizing l with
  | ind n ih =>
      cases hfirst : firstOccurrence word l with
      | none => rw [cut_of_eq_none hfirst, List.intercalate_singleton]
      | some i =>
          have hsplit := split_of_eq_some hfirst
          have hpos := List.length_pos_iff.mpr hword
          have hshort := congrArg List.length hsplit
          simp only [List.length_append] at hshort
          rw [cut_of_eq_some hword hfirst, List.intercalate_cons_of_ne_nil (cut_ne_nil _ _ _),
            ih (l.drop (i + word.length)).length (by omega) _ rfl, ← hsplit]

/-- A separator that is no shorter than the word makes the list no shorter. -/
theorem length_le_intercalate {separator : List α} (hword : word ≠ [])
    (hle : word.length ≤ separator.length) (l : List α) :
    l.length ≤ (separator.intercalate (cut word 0 l)).length := by
  conv_lhs => rw [← intercalate_cut hword l]
  rw [length_intercalate, length_intercalate]
  exact Nat.add_le_add_left (Nat.mul_le_mul_right _ hle) _

end FastDCS.WordSearch
