import Mathlib.Data.List.Count
import Mathlib.Data.List.Nodup
import Mathlib.Data.List.Perm.Subperm
import Mathlib.Logic.Function.Basic
import Mathlib.Tactic.SplitIfs

/-!
Objects on a heap and the pointers that own them. An object keeps its number for
ever, so that a pointer to a deleted object is told from one to a later object.
-/

namespace FastDCS.Heaps

universe u

structure Heap (α : Type u) where
  objects : Nat → Option α
  next : Nat
  fresh : ∀ p, next ≤ p → objects p = none

namespace Heap

variable {α : Type u}

def empty : Heap α := ⟨fun _ => none, 0, fun _ _ => rfl⟩

def find? (h : Heap α) (p : Nat) : Option α := h.objects p

/-- The heap with a new object, whose number is `h.next`. -/
def alloc (h : Heap α) (x : α) : Heap α where
  objects := Function.update h.objects h.next (some x)
  next := h.next + 1
  fresh p hp := by
    rw [Function.update_of_ne (by omega)]
    exact h.fresh p (by omega)

/-- Write an object that is there; writing another has no meaning. -/
def write (h : Heap α) (p : Nat) (x : α) : Option (Heap α) :=
  if hp : (h.objects p).isSome then
    some
      { objects := Function.update h.objects p (some x)
        next := h.next
        fresh := fun q hq => by
          have hne : q ≠ p := by
            rintro rfl
            rw [h.fresh q hq] at hp
            cases hp
          rw [Function.update_of_ne hne]
          exact h.fresh q hq }
  else none

/-- Delete an object that is there; deleting it twice has no meaning. -/
def delete (h : Heap α) (p : Nat) : Option (Heap α) :=
  if (h.objects p).isSome then
    some
      { objects := Function.update h.objects p none
        next := h.next
        fresh := fun q hq => by
          rcases eq_or_ne q p with rfl | hne
          · exact Function.update_self _ _ _
          · rw [Function.update_of_ne hne]
            exact h.fresh q hq }
  else none

def deleteAll : Heap α → List Nat → Option (Heap α)
  | h, [] => some h
  | h, p :: rest => (h.delete p).bind fun h' => deleteAll h' rest

variable {h h' : Heap α} {p q : Nat} {x : α}

theorem find?_alloc : (h.alloc x).find? q = if q = h.next then some x else h.find? q :=
  Function.update_apply _ _ _ _

theorem find?_next (h : Heap α) : h.find? h.next = none := h.fresh _ (Nat.le_refl _)

theorem find?_write (hw : h.write p x = some h') :
    h'.find? q = if q = p then some x else h.find? q := by
  rw [write] at hw
  split_ifs at hw
  obtain rfl := Option.some.inj hw
  exact Function.update_apply _ _ _ _

theorem find?_delete (hd : h.delete p = some h') :
    h'.find? q = if q = p then none else h.find? q := by
  rw [delete] at hd
  split_ifs at hd
  obtain rfl := Option.some.inj hd
  exact Function.update_apply _ _ _ _

theorem find?_deleteAll {ps : List Nat} (hd : h.deleteAll ps = some h') :
    h'.find? q = if q ∈ ps then none else h.find? q := by
  induction ps generalizing h with
  | nil =>
      obtain rfl := Option.some.inj hd
      simp
  | cons p rest ih =>
      rw [deleteAll, Option.bind_eq_some_iff] at hd
      obtain ⟨h₁, hp, hrest⟩ := hd
      rw [ih hrest, find?_delete hp]
      by_cases hq : q ∈ rest
      · simp [hq]
      · by_cases hqp : q = p <;> simp [hq, hqp]

theorem next_write (hw : h.write p x = some h') : h'.next = h.next := by
  rw [write] at hw
  split_ifs at hw
  obtain rfl := Option.some.inj hw
  rfl

theorem lt_next (hp : (h.find? p).isSome) : p < h.next := by
  by_contra hge
  rw [find?, h.fresh p (Nat.not_lt.mp hge)] at hp
  cases hp

/-- There are no more objects than were ever made. -/
theorem length_le_next {ps : List Nat} (hnodup : ps.Nodup) (hlive : ∀ p ∈ ps, (h.find? p).isSome) :
    ps.length ≤ h.next := by
  have hsubset : ps ⊆ List.range h.next := fun p hp => List.mem_range.mpr (lt_next (hlive p hp))
  have hle := (hnodup.subperm hsubset).length_le
  rwa [List.length_range] at hle

theorem exists_write (h : Heap α) (x : α) (hp : (h.find? p).isSome) :
    ∃ h', h.write p x = some h' := ⟨_, dif_pos hp⟩

theorem exists_delete (h : Heap α) (hp : (h.find? p).isSome) : ∃ h', h.delete p = some h' :=
  ⟨_, if_pos hp⟩

theorem exists_deleteAll {ps : List Nat} (hnodup : ps.Nodup)
    (hlive : ∀ p ∈ ps, (h.find? p).isSome) : ∃ h', h.deleteAll ps = some h' := by
  induction ps generalizing h with
  | nil => exact ⟨h, rfl⟩
  | cons p rest ih =>
      obtain ⟨hp, hrest⟩ := List.nodup_cons.mp hnodup
      obtain ⟨h₁, hdelete⟩ := h.exists_delete (hlive p List.mem_cons_self)
      obtain ⟨h₂, hdeleteAll⟩ := ih hrest fun q hq => by
        have hne : q ≠ p := fun heq => hp (heq ▸ hq)
        rw [find?_delete hdelete, if_neg hne]
        exact hlive q (List.mem_cons_of_mem _ hq)
      exact ⟨h₂, Option.bind_eq_some_iff.mpr ⟨h₁, hdelete, hdeleteAll⟩⟩

/-- The pointers own the objects: each one that is there exactly once, and no
other. -/
def Owns (h : Heap α) (ps : List Nat) : Prop :=
  ∀ p, ps.count p = if (h.find? p).isSome then 1 else 0

theorem owns_empty : (empty : Heap α).Owns [] := fun _ => rfl

theorem Owns.find?_isSome {ps : List Nat} (ho : h.Owns ps) (hp : p ∈ ps) : (h.find? p).isSome := by
  by_contra hnone
  have hcount := ho p
  rw [if_neg hnone, List.count_eq_zero] at hcount
  exact hcount hp

theorem Owns.mem {ps : List Nat} (ho : h.Owns ps) (hp : (h.find? p).isSome) : p ∈ ps := by
  have hcount := ho p
  rw [if_pos hp] at hcount
  exact List.count_pos_iff.mp (by omega)

theorem Owns.nodup {ps : List Nat} (ho : h.Owns ps) : ps.Nodup := by
  rw [List.nodup_iff_count_le_one]
  intro p
  rw [ho p]
  split_ifs <;> omega

theorem Owns.perm {ps qs : List Nat} (ho : h.Owns ps) (hperm : ps.Perm qs) : h.Owns qs :=
  fun p => (hperm.count_eq p).symm.trans (ho p)

theorem Owns.alloc {ps : List Nat} (ho : h.Owns ps) (x : α) : (h.alloc x).Owns (h.next :: ps) := by
  intro p
  have hcount := ho p
  rw [find?_alloc, List.count_cons]
  rcases eq_or_ne p h.next with rfl | hne
  · rw [find?_next] at hcount
    simp_all
  · simp [hne, hne.symm, hcount]

theorem Owns.deleteAll {ps qs : List Nat} (ho : h.Owns (ps ++ qs))
    (hd : h.deleteAll qs = some h') : h'.Owns ps := by
  intro p
  have hcount := ho p
  rw [List.count_append] at hcount
  rw [find?_deleteAll hd]
  by_cases hp : p ∈ qs
  · have hpos := List.count_pos_iff.mpr hp
    rw [if_pos hp]
    split_ifs at hcount <;> simp <;> omega
  · rw [if_neg hp]
    rw [List.count_eq_zero.mpr hp] at hcount
    omega

theorem Owns.delete {ps : List Nat} (ho : h.Owns (p :: ps)) (hd : h.delete p = some h') :
    h'.Owns ps := by
  refine (ho.perm (List.perm_append_singleton p ps).symm).deleteAll (Option.bind_eq_some_iff.mpr ?_)
  exact ⟨h', hd, rfl⟩

theorem Owns.of_isSome_eq {ps : List Nat} (ho : h.Owns ps)
    (hsame : ∀ p, (h'.find? p).isSome = (h.find? p).isSome) : h'.Owns ps := by
  intro p
  rw [hsame]
  exact ho p

end Heap

end FastDCS.Heaps
