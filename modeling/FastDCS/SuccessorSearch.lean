import Mathlib.Data.List.Chain
import Mathlib.Data.List.Nodup

/-!
Searching along a successor function for the first item at which to stop, and
when such a search follows a given ring of items wherever it has to stop.
-/

namespace FastDCS.SuccessorSearch

universe u

variable {α : Type u}

def search (next : α → α) (stop : α → Bool) : Nat → α → Option α
  | 0, _ => none
  | fuel + 1, a => if stop a then some a else search next stop fuel (next a)

variable {next : α → α} {stop : α → Bool}

theorem search_of_stop {fuel : Nat} {a : α} (h : stop a = true) :
    search next stop (fuel + 1) a = some a := if_pos h

theorem search_mono {fuel fuel' : Nat} {a b : α} (hle : fuel ≤ fuel')
    (h : search next stop fuel a = some b) : search next stop fuel' a = some b := by
  induction fuel generalizing a fuel' with
  | zero => cases h
  | succ fuel ih =>
      obtain ⟨fuel', rfl⟩ := Nat.exists_eq_succ_of_ne_zero (Nat.ne_of_gt (Nat.zero_lt_of_lt hle))
      rw [search] at h ⊢
      split_ifs at h ⊢ with hstop
      · exact h
      · exact ih (Nat.le_of_succ_le_succ hle) h

theorem search_unique {fuel fuel' : Nat} {a b b' : α} (h : search next stop fuel a = some b)
    (h' : search next stop fuel' a = some b') : b = b' := by
  have hb := search_mono (Nat.le_max_left fuel fuel') h
  have hb' := search_mono (Nat.le_max_right fuel fuel') h'
  exact Option.some.inj (hb.symm.trans hb')

/-- A search that enters a set without a stop, from which no successor leads
out, finds nothing. -/
theorem search_eq_none_of_closed (inside : α → Prop) (hnext : ∀ a, inside a → inside (next a))
    (hgo : ∀ a, inside a → stop a = false) {a : α} (ha : inside a) (fuel : Nat) :
    search next stop fuel a = none := by
  induction fuel generalizing a with
  | zero => rfl
  | succ fuel ih =>
      rw [search, if_neg (by simp [hgo a ha])]
      exact ih (hnext a ha)

/-- The search passes a stretch of successors without a stop. -/
theorem search_of_isChain {a : α} {walked : List α}
    (hchain : List.IsChain (fun x y => next x = y) (a :: walked))
    (hgo : ∀ x ∈ walked, stop x = false)
    (hstop : stop (next ((a :: walked).getLast (List.cons_ne_nil a walked))) = true) :
    search next stop (walked.length + 1) (next a) =
      some (next ((a :: walked).getLast (List.cons_ne_nil a walked))) := by
  induction walked generalizing a with
  | nil => exact search_of_stop hstop
  | cons b walked ih =>
      obtain ⟨rfl, hrest⟩ := List.isChain_cons_cons.mp hchain
      rw [List.length_cons, search, if_neg (by simp [hgo _ List.mem_cons_self])]
      simp only [List.getLast_cons_cons] at hstop ⊢
      exact ih hrest (fun x hx => hgo x (List.mem_cons_of_mem _ hx)) hstop

/-- The successors of a stretch are in any set that has the stretch behind its
first item and the successor of its last. -/
theorem next_mem_of_isChain {inside : α → Prop} {a : α} {walked : List α}
    (hchain : List.IsChain (fun x y => next x = y) (a :: walked)) (hin : ∀ x ∈ walked, inside x)
    (hlast : inside (next ((a :: walked).getLast (List.cons_ne_nil a walked)))) {x : α}
    (hx : x ∈ a :: walked) : inside (next x) := by
  induction walked generalizing a with
  | nil =>
      obtain rfl := List.mem_singleton.mp hx
      exact hlast
  | cons b walked ih =>
      obtain ⟨rfl, hrest⟩ := List.isChain_cons_cons.mp hchain
      rcases List.mem_cons.mp hx with rfl | hx
      · exact hin _ List.mem_cons_self
      · exact ih hrest (fun x hx => hin x (List.mem_cons_of_mem _ hx)) hlast hx

section Rings

variable [DecidableEq α] {own : α} {others : List α}

/-- The search stops at the chosen items, and where it started from. -/
def stopAt (own : α) (chosen : α → Bool) (a : α) : Bool := decide (a = own) || chosen a

theorem stopAt_eq_false {chosen : α → Bool} {a : α} :
    stopAt own chosen a = false ↔ a ≠ own ∧ chosen a = false := by
  simp [stopAt]

/-- Around a ring the search finds the first chosen item, or comes back. -/
theorem search_ring (hown : own ∉ others) {a : α}
    (hchain : List.IsChain (fun x y => next x = y) (a :: (others ++ [own])))
    (chosen : α → Bool) :
    search next (stopAt own chosen) (others.length + 1) (next a) =
      some ((others.find? chosen).getD own) := by
  induction others generalizing a with
  | nil =>
      obtain ⟨hnext, _⟩ := List.isChain_cons_cons.mp hchain
      rw [hnext]
      exact search_of_stop (by simp [stopAt])
  | cons b rest ih =>
      obtain ⟨rfl, hrest⟩ := List.isChain_cons_cons.mp hchain
      have hne : next a ≠ own := fun h => hown (h ▸ List.mem_cons_self)
      rw [List.length_cons]
      cases hchosen : chosen (next a) with
      | true =>
          rw [List.find?_cons_of_pos hchosen]
          exact search_of_stop (by simp [stopAt, hchosen])
      | false =>
          have hgo : ¬stopAt own chosen (next a) = true := by
            rw [Bool.not_eq_true]
            exact stopAt_eq_false.mpr ⟨hne, hchosen⟩
          rw [List.find?_cons_of_neg (by simp [hchosen]), search, if_neg hgo]
          exact ih (fun h => hown (List.mem_cons_of_mem _ h)) hrest

/-- Where the search does what it should with the items behind the walked ones
chosen, the next successor is the first of them, or the start if there is none. -/
theorem next_eq_of_search (hnodup : others.Nodup) (hown : own ∉ others)
    (hnext : ∀ a ∈ own :: others, next a ∈ own :: others)
    (hsearch : ∀ chosen : α → Bool, ∃ fuel,
      search next (stopAt own chosen) fuel (next own) = some ((others.find? chosen).getD own))
    {walked rest : List α} (hothers : others = walked ++ rest)
    (hchain : List.IsChain (fun x y => next x = y) (own :: walked)) :
    next ((own :: walked).getLast (List.cons_ne_nil own walked)) = rest.headD own := by
  subst hothers
  let chosen : α → Bool := fun a => decide (a ∈ rest)
  have hnone : ∀ x ∈ walked, x ∉ rest := fun x hx hx' =>
    (List.nodup_append.mp hnodup).2.2 x hx x hx' rfl
  have hfirst : ((walked ++ rest).find? chosen).getD own = rest.headD own := by
    have hwalked : walked.find? chosen = none := by
      rw [List.find?_eq_none]
      intro x hx
      simpa [chosen] using hnone x hx
    rw [List.find?_append, hwalked, Option.none_or]
    cases rest with
    | nil => rfl
    | cons b rest => rw [List.find?_cons_of_pos (by simp [chosen])]; rfl
  obtain ⟨fuel, hfuel⟩ := hsearch chosen
  rw [hfirst] at hfuel
  have hgo : ∀ x ∈ walked, stopAt own chosen x = false := by
    intro x hx
    refine stopAt_eq_false.mpr ⟨?_, by simpa [chosen] using hnone x hx⟩
    rintro rfl
    exact hown (List.mem_append_left _ hx)
  have hlast : (own :: walked).getLast (List.cons_ne_nil own walked) ∈ own :: (walked ++ rest) := by
    rw [← List.cons_append]
    exact List.mem_append_left _ (List.getLast_mem _)
  by_cases hwalked : next ((own :: walked).getLast (List.cons_ne_nil own walked)) ∈ walked
  · -- the search would walk in circles
    have hnextIn : ∀ x ∈ own :: walked, next x ∈ walked := fun x hx =>
      next_mem_of_isChain hchain (fun y hy => hy) hwalked hx
    have hcircle := search_eq_none_of_closed (· ∈ walked)
      (fun x hx => hnextIn x (List.mem_cons_of_mem _ hx)) hgo (hnextIn own List.mem_cons_self) fuel
    rw [hcircle] at hfuel
    cases hfuel
  · have hstop : stopAt own chosen
        (next ((own :: walked).getLast (List.cons_ne_nil own walked))) = true := by
      rcases List.mem_cons.mp (hnext _ hlast) with heq | hmem
      · simp [stopAt, heq]
      · have hrest := (List.mem_append.mp hmem).resolve_left hwalked
        simp [stopAt, chosen, hrest]
    exact search_unique (search_of_isChain hchain hgo hstop) hfuel

/-- The search finds the first chosen item of the ring for every choice exactly
where the successors go round the ring. -/
theorem search_ring_iff (hnodup : others.Nodup) (hown : own ∉ others)
    (hnext : ∀ a ∈ own :: others, next a ∈ own :: others) :
    (∀ chosen : α → Bool, ∃ fuel,
        search next (stopAt own chosen) fuel (next own) = some ((others.find? chosen).getD own)) ↔
      List.IsChain (fun x y => next x = y) (own :: (others ++ [own])) := by
  constructor
  · intro hsearch
    have hstep : ∀ walked rest, others = walked ++ rest →
        List.IsChain (fun x y => next x = y) (own :: walked) →
          next ((own :: walked).getLast (List.cons_ne_nil own walked)) = rest.headD own :=
      fun _ _ => next_eq_of_search hnodup hown hnext hsearch
    have hround : ∀ rest walked : List α, others = walked ++ rest →
        List.IsChain (fun x y => next x = y) (own :: walked) →
          List.IsChain (fun x y => next x = y) (own :: (walked ++ rest ++ [own])) := by
      intro rest
      induction rest with
      | nil =>
          intro walked hothers hchain
          have hback := hstep walked [] hothers hchain
          rw [List.append_nil, ← List.cons_append]
          refine hchain.append (List.isChain_singleton own) fun x hx y hy => ?_
          rw [List.getLast?_eq_some_getLast (List.cons_ne_nil own walked)] at hx
          rw [← Option.some.inj hx, ← Option.some.inj hy]
          exact hback
      | cons b rest ih =>
          intro walked hothers hchain
          have hforward := hstep walked (b :: rest) hothers hchain
          have hlonger : List.IsChain (fun x y => next x = y) (own :: (walked ++ [b])) := by
            rw [← List.cons_append]
            refine hchain.append (List.isChain_singleton b) fun x hx y hy => ?_
            rw [List.getLast?_eq_some_getLast (List.cons_ne_nil own walked)] at hx
            rw [← Option.some.inj hx, ← Option.some.inj hy]
            exact hforward
          have hrest := ih (walked ++ [b]) (by simpa using hothers) hlonger
          simpa using hrest
    exact hround others [] rfl (List.isChain_singleton own)
  · exact fun hchain chosen => ⟨_, search_ring hown hchain chosen⟩

end Rings

end FastDCS.SuccessorSearch
