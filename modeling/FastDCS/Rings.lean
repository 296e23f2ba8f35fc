import Mathlib.Data.List.Cycle

/-!
Lists read as rings: the successor of an element, sublists of a ring, and the
part of a ring that a walk has passed.
-/

namespace FastDCS.Rings

open List

universe u

variable {α : Type u}

theorem isRotated_filter {l m : List α} (h : l ~r m) (p : α → Bool) :
    l.filter p ~r m.filter p := by
  obtain ⟨n, rfl⟩ := h
  rw [rotate_eq_drop_append_take_mod, filter_append]
  have hsplit : l.filter p =
      (l.take (n % l.length)).filter p ++ (l.drop (n % l.length)).filter p := by
    rw [← filter_append, take_append_drop]
  rw [hsplit]
  exact isRotated_append

theorem exists_isRotated_cons {l : List α} {a : α} (h : a ∈ l) : ∃ rest, l ~r a :: rest := by
  obtain ⟨before, after, rfl⟩ := append_of_mem h
  exact ⟨after ++ before, isRotated_append⟩

theorem isRotated_middle {l passed rest : List α} {a : α} (h : l ~r passed ++ a :: rest) :
    l ~r a :: (rest ++ passed) :=
  h.trans isRotated_append

theorem headD_eq_get {l : List α} (d : α) (h : 0 < l.length) : l.headD d = l.get ⟨0, h⟩ := by
  cases l with
  | nil => cases h
  | cons a l => rfl

variable [DecidableEq α]

theorem successor_unique {l x y : List α} {a b c : α} (hl : l.Nodup) (hb : l ~r a :: b :: x)
    (hc : l ~r a :: c :: y) : b = c := by
  have ha : a ∈ l := hb.mem_iff.mpr mem_cons_self
  have hnextb := isRotated_next_eq hb hl ha
  have hnextc := isRotated_next_eq hc hl ha
  rw [next_cons_cons_eq] at hnextb hnextc
  rw [← hnextb, hnextc]

/-- Two readings of a ring from one element go on with the same element. -/
theorem head?_unique {l x y : List α} {a : α} (hl : l.Nodup) (hx : l ~r a :: x)
    (hy : l ~r a :: y) : x.head? = y.head? := by
  have hlength : x.length = y.length := by
    have := (hx.perm.symm.trans hy.perm).length_eq
    simpa using this
  cases x with
  | nil =>
      obtain rfl : y = [] := length_eq_zero_iff.mp hlength.symm
      rfl
  | cons b x =>
      cases y with
      | nil => simp at hlength
      | cons c y => rw [successor_unique hl hx hy]; rfl

theorem next_eq_of_isRotated {l x : List α} {a b : α} (hl : l.Nodup) (h : l ~r a :: b :: x)
    (ha : a ∈ l) : l.next a ha = b := by
  rw [isRotated_next_eq h hl ha, next_cons_cons_eq]

end FastDCS.Rings
