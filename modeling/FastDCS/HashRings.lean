import Mathlib.Data.Set.Basic
import Mathlib.Order.Basic

/-!
Items on a ring, each at its key. A key belongs to the first item at or behind it, and
behind the last item the ring starts again.
-/

namespace FastDCS.HashRings

universe u v

variable {β : Type u} {κ : Type v} [LinearOrder κ] {key : β → κ}

/-- The item that a key belongs to. -/
structure Owner (key : β → κ) (items : Set β) (k : κ) (a : β) : Prop where
  mem : a ∈ items
  first : (k ≤ key a ∧ ∀ b ∈ items, k ≤ key b → key a ≤ key b) ∨
    (∀ b ∈ items, key b < k) ∧ ∀ b ∈ items, key a ≤ key b

/-- The owner in a list. -/
def lookup (key : β → κ) (k : κ) (items : List β) : Option β :=
  (items.find? fun a => decide (k ≤ key a)).or items.head?

variable {items items' : Set β} {l : List β} {k : κ} {a b : β}

namespace Owner

theorem key_eq (ha : Owner key items k a) (hb : Owner key items k b) : key a = key b := by
  rcases ha.first with ⟨hka, hleast⟩ | ⟨hbelow, hleast⟩
  · rcases hb.first with ⟨hkb, hleast'⟩ | ⟨hbelow', _⟩
    · exact le_antisymm (hleast b hb.mem hkb) (hleast' a ha.mem hka)
    · exact absurd (hbelow' a ha.mem) (not_lt.mpr hka)
  · rcases hb.first with ⟨hkb, _⟩ | ⟨_, hleast'⟩
    · exact absurd (hbelow b hb.mem) (not_lt.mpr hkb)
    · exact le_antisymm (hleast b hb.mem) (hleast' a ha.mem)

/-- When items go, what belongs to one that stays keeps its owner. -/
theorem restrict (h : Owner key items' k a) (hsubset : items ⊆ items') (ha : a ∈ items) :
    Owner key items k a := by
  refine ⟨ha, ?_⟩
  rcases h.first with ⟨hle, hleast⟩ | ⟨hbelow, hleast⟩
  · exact Or.inl ⟨hle, fun b hb => hleast b (hsubset hb)⟩
  · exact Or.inr ⟨fun b hb => hbelow b (hsubset hb), fun b hb => hleast b (hsubset hb)⟩

/-- When items come, what does not belong to a new one keeps its owner. -/
theorem eq_of_subset (hinj : Set.InjOn key items) (h : Owner key items k a)
    (h' : Owner key items' k b) (hsubset : items ⊆ items') (hb : b ∈ items) : a = b :=
  hinj h.mem hb (h.key_eq (h'.restrict hsubset hb))

theorem image {γ : Type u} {f : β → γ} {key' : γ → κ} (h : Owner key items k a)
    (hkey : ∀ b ∈ items, key' (f b) = key b) : Owner key' (f '' items) k (f a) := by
  refine ⟨Set.mem_image_of_mem f h.mem, ?_⟩
  rw [hkey a h.mem]
  rcases h.first with ⟨hle, hleast⟩ | ⟨hbelow, hleast⟩
  · refine Or.inl ⟨hle, ?_⟩
    rintro _ ⟨b, hb, rfl⟩
    rw [hkey b hb]
    exact hleast b hb
  · refine Or.inr ⟨?_, ?_⟩
    · rintro _ ⟨b, hb, rfl⟩
      rw [hkey b hb]
      exact hbelow b hb
    · rintro _ ⟨b, hb, rfl⟩
      rw [hkey b hb]
      exact hleast b hb

end Owner

theorem lookup_eq_none_iff : lookup key k l = none ↔ l = [] := by
  rw [lookup, Option.or_eq_none_iff]
  constructor
  · rintro ⟨_, hhead⟩
    exact List.head?_eq_none_iff.mp hhead
  · rintro rfl
    exact ⟨rfl, rfl⟩

/-- In a list where the keys do not decrease, the lookup finds the owner. -/
theorem owner_of_lookup (hsorted : l.Pairwise fun a b => key a ≤ key b)
    (h : lookup key k l = some a) : Owner key { b | b ∈ l } k a := by
  rw [lookup] at h
  cases hfind : l.find? fun a => decide (k ≤ key a) with
  | some found =>
      rw [hfind] at h
      obtain rfl := Option.some.inj h
      obtain ⟨hle, before, after, rfl, hbefore⟩ := List.find?_eq_some_iff_append.mp hfind
      rw [decide_eq_true_iff] at hle
      refine ⟨List.mem_append_right _ List.mem_cons_self, Or.inl ⟨hle, fun b hb hkb => ?_⟩⟩
      rcases List.mem_append.mp hb with hb | hb
      · have hsmaller := hbefore b hb
        simp [hkb] at hsmaller
      · rcases List.mem_cons.mp hb with rfl | hb
        · exact le_rfl
        · exact (List.pairwise_cons.mp (List.pairwise_append.mp hsorted).2.1).1 b hb
  | none =>
      rw [hfind] at h
      rw [List.find?_eq_none] at hfind
      cases l with
      | nil => cases h
      | cons first rest =>
          obtain rfl := Option.some.inj h
          refine ⟨List.mem_cons_self, Or.inr ⟨fun b hb => ?_, fun b hb => ?_⟩⟩
          · have hsmaller := hfind b hb
            rw [decide_eq_true_iff] at hsmaller
            exact not_le.mp hsmaller
          · rcases List.mem_cons.mp hb with rfl | hb
            · exact le_rfl
            · exact (List.pairwise_cons.mp hsorted).1 b hb

end FastDCS.HashRings
