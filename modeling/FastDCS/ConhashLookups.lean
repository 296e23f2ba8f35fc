import FastDCS.ConhashRuns

/-!
What `conhash_lookup` and `conhash_get_vnodes` read of the ring, and which objects a call of
`conhash_add_node` or `conhash_del_node` moves.
-/

namespace FastDCS.ConhashNodes

open FastDCS.Handlers
open FastDCS.Heaps
open FastDCS.SearchTrees
open FastDCS.LinkedTrees
open FastDCS.RedBlackTrees
open FastDCS.RbTrees
open FastDCS.HashRings
open FastDCS.Strings

variable {platform : Platform} {c d : ConhashS} {E : Fault → Prop} {tree : RbTrees.Tree Nat}
  {rootParent : Option Nat} {node : Nat} {r : RingState} {servers : Nat → NodeS}

section Reading

/-- The server that a hash belongs to on the ring. -/
def Serves (ring : Ring) (key : Int) (node : Nat) : Prop :=
  ∃ hash, Owner id { h | (ring h).isSome } key hash ∧ ring hash = some node

/-- What a lookup on the ring may answer. -/
def Answers (ring : Ring) (key : Int) : Option Nat → Prop
  | none => ∀ hash, ring hash = none
  | some node => Serves ring key node

/-- There are no more virtual nodes than `ivnodes` can count. -/
def Few (ring : Ring) : Prop :=
  ∃ hashes : List Int, hashes.length < 2 ^ 32 ∧ ∀ hash, (ring hash).isSome → hash ∈ hashes

variable {ring ring' : Ring} {key : Int} {answer answer' : Option Nat}

namespace Stores

theorem eq_leaf_iff (h : Stores c ring tree rootParent) :
    tree = .leaf ↔ ∀ hash, ring hash = none := by
  simp only [h.ring_eq_none_iff]
  constructor
  · rintro rfl hash
    exact nofun
  · intro hall
    cases tree with
    | leaf => rfl
    | node left e right =>
        exact absurd rfl (hall (plain e).key (plain e) (by rw [plains_node]; simp))

theorem size_lt (h : Stores c ring tree rootParent) (hfew : Few ring) : tree.size < 2 ^ 32 := by
  obtain ⟨hashes, hlength, hmem⟩ := hfew
  have hsubset : (plains tree).map Plain.key ⊆ hashes := fun hash hin => by
    obtain ⟨a, ha, rfl⟩ := List.mem_map.mp hin
    obtain ⟨n, _, hring⟩ := h.stored a ha
    exact hmem a.key (Option.isSome_iff_exists.mpr ⟨n, hring⟩)
  have hle := (List.subperm_of_subset h.keys_nodup hsubset).length_le
  rw [List.length_map, length_plains] at hle
  exact hle.trans_lt hlength

theorem hashes_eq (h : Stores c ring tree rootParent) :
    Plain.key '' { a | a ∈ plains tree } = { hash | (ring hash).isSome } := by
  ext hash
  constructor
  · rintro ⟨a, ha, rfl⟩
    obtain ⟨n, _, hring⟩ := h.stored a ha
    exact Option.isSome_iff_exists.mpr ⟨n, hring⟩
  · intro hsome
    obtain ⟨n, hring⟩ := Option.isSome_iff_exists.mp hsome
    exact h.covered hash n hring

/-- The virtual node that `util_rbtree_lookup` finds is one of the server that the hash
belongs to. -/
theorem ensures_lookup (h : Stores c ring tree rootParent) (key : Int) :
    Ensures (onTree (utilRbtreeLookup key)) c
      (fun r d => d = c ∧ (r = none ↔ tree = .leaf) ∧ ∀ p, r = some p →
        ∃ a ∈ plains tree, a.ptr = p ∧ ∃ node, c.vnodes.find? a.data = some ⟨a.key, node⟩ ∧
          Serves ring key node) E := by
  rw [ensures_onTree]
  refine (ensures_utilRbtreeLookup h.redBlack.stands h.redBlack.sorted key).imp ?_
  rintro r t ⟨rfl, rfl⟩
  refine ⟨rfl, ?_, fun p hp => ?_⟩
  · rw [Option.map_eq_none_iff, lookup_eq_none_iff, ← List.length_eq_zero_iff, length_plains]
    cases tree <;> simp
  · obtain ⟨a, hlookup, rfl⟩ := Option.map_eq_some_iff.mp hp
    have howner := owner_of_lookup h.redBlack.sorted hlookup
    obtain ⟨node, hfind, hring⟩ := h.stored a howner.mem
    have hserves : Owner id (Plain.key '' { b | b ∈ plains tree }) key a.key :=
      howner.image fun _ _ => rfl
    rw [h.hashes_eq] at hserves
    exact ⟨a, howner.mem, rfl, node, hfind, a.key, hserves, hring⟩

end Stores

theorem Represents.ensures_conhashLookup (h : Represents c ring tree rootParent)
    (hfew : Few ring) (platform : Platform) (object : Str) :
    Ensures (conhashLookup platform object) c
      (fun r d => d = c ∧ Answers ring (platform.hashfunc object) r) E := by
  have hzero : c.ivnodes = 0 ↔ tree = .leaf := by
    rw [h.ivnodes_eq, h.redBlack.size_eq, ← UInt32.toNat_inj,
      UInt32.toNat_ofNat_of_lt' (h.size_lt hfew)]
    cases tree <;> simp
  rw [conhashLookup, ensures_bind, ensures_get, ensures_ite, hzero]
  refine ⟨fun hempty => ⟨rfl, h.eq_leaf_iff.mp hempty⟩, fun _ => ?_⟩
  rw [ensures_bind]
  refine (h.ensures_lookup _).imp ?_
  rintro found d ⟨rfl, hnone, hsome⟩
  cases found with
  | none => exact ⟨rfl, h.eq_leaf_iff.mp (hnone.mp rfl)⟩
  | some p =>
      obtain ⟨a, ha, rfl, node, hfind, hserves⟩ := hsome p rfl
      obtain ⟨rbnode, hrbnode, hlabel⟩ := h.rbnode_find? ha
      dsimp only
      rw [ensures_bind]
      refine ensures_dataOf hrbnode ?_
      rw [show rbnode.item.data = a.data from congrArg Prod.snd hlabel, ensures_bind]
      simp only [vnodeAt, ensures_bind, ensures_get, hfind, ensures_pure]
      exact ⟨trivial, hserves⟩

/-- Virtual nodes of one server come, and none goes. -/
structure Grows (ring ring' : Ring) (node : Nat) : Prop where
  stays : ∀ hash n, ring hash = some n → ring' hash = some n
  comes : ∀ hash n, ring' hash = some n → ring hash = some n ∨ n = node

namespace Grows

theorem refl (ring : Ring) (node : Nat) : Grows ring ring node :=
  ⟨fun _ _ => id, fun _ _ => Or.inl⟩

theorem trans {ring'' : Ring} (h : Grows ring ring' node) (h' : Grows ring' ring'' node) :
    Grows ring ring'' node := by
  refine ⟨fun hash n hn => h'.stays hash n (h.stays hash n hn), fun hash n hn => ?_⟩
  rcases h'.comes hash n hn with hn | rfl
  · exact h.comes hash n hn
  · exact Or.inr rfl

/-- What a lookup answers changes to the new server only. -/
theorem answer_eq (h : Grows ring ring' node) (hanswer : Answers ring key answer)
    (hanswer' : Answers ring' key answer') : answer' = answer ∨ answer' = some node := by
  have hsubset : { hash | (ring hash).isSome } ⊆ { hash | (ring' hash).isSome } := by
    intro hash hsome
    obtain ⟨n, hn⟩ := Option.isSome_iff_exists.mp hsome
    exact Option.isSome_iff_exists.mpr ⟨n, h.stays hash n hn⟩
  cases answer' with
  | none =>
      cases answer with
      | none => exact Or.inl rfl
      | some n =>
          obtain ⟨hash, _, hring⟩ := hanswer
          have hnone := hanswer' hash
          rw [h.stays hash n hring] at hnone
          cases hnone
  | some m =>
      obtain ⟨hash', howner', hring'⟩ := hanswer'
      rcases h.comes hash' m hring' with hold | rfl
      · cases answer with
        | none =>
            rw [hanswer hash'] at hold
            cases hold
        | some n =>
            obtain ⟨hash, howner, hring⟩ := hanswer
            have hsame : hash = hash' := howner.eq_of_subset Function.injective_id.injOn howner'
              hsubset (Option.isSome_iff_exists.mpr ⟨m, hold⟩)
            rw [← hsame, hring] at hold
            exact Or.inl (congrArg some (Option.some.inj hold).symm)
      · exact Or.inr rfl

end Grows

theorem Answers.unique (h : Answers ring key answer) (h' : Answers ring key answer') :
    answer' = answer := by
  rcases (Grows.refl ring 0).answer_eq h h' with hsame | hzero
  · exact hsame
  · rcases (Grows.refl ring 1).answer_eq h h' with hsame | hone
    · exact hsame
    · rw [hzero] at hone
      cases hone

end Reading

section Results

end Results

end FastDCS.ConhashNodes
