import FastDCS.SkipListEdits

/-!
The skip list as a sorted set: over every sequence of calls its answers are those of
the set, and its levels are chains of which each is part of the one below.
-/

namespace FastDCS.SortedSets

open Heaps
open Towers
open SkipLists

variable {α σ : Type}

inductive Action (α σ : Type)
  | insert (value : α) (newNodeLevel : Fin (skiplistLevelMax + 1))
  | delete (value : α)
  | contains (value : α)
  | search (search : σ)
  | iterate

inductive Answer (α : Type)
  | done (result : Bool)
  | found (value : Option α)
  | values (values : List α)

/-- One call, with a level for the node that an insertion makes. -/
def step (C : Comparison α σ) (list : SkipList α) :
    Action α σ → Option (Answer α × SkipList α)
  | .insert value newNodeLevel =>
      (skiplistInsert C list value newNodeLevel).map fun r => (.done r.1, r.2)
  | .delete value => (skiplistDelete C list value).map fun r => (.done r.1, r.2)
  | .contains value => (skiplistContains C list value).map fun r => (.done r, list)
  | .search search => (skiplistSearch C list search).map fun v => (.found v, list)
  | .iterate => list.iterate.map fun vs => (.values vs, list)

/-- The members of the set of which none is equal to the value. -/
def without (C : Comparison α σ) (value : α) (members : List α) : List α :=
  members.filter fun w => C.order w value != .eq

/-- The set after a call: an inserted value takes the place of an equal one. -/
def after (C : Comparison α σ) (members : List α) : Action α σ → List α
  | .insert value _ => value :: without C value members
  | .delete value => without C value members
  | .contains _ | .search _ | .iterate => members

/-- What the set answers. -/
def Agrees (C : Comparison α σ) (members : List α) : Action α σ → Answer α → Prop
  | .insert _ _, .done result => result = true
  | .delete value, .done result | .contains value, .done result =>
      result = members.any fun w => C.order w value == .eq
  | .search search, .found value =>
      value = members.find? fun w => skiplistCmpNormalize (C.searchFn w search) == .eq
  | .iterate, .values values =>
      values.Pairwise (fun v w => C.order v w = .lt) ∧ values.Perm members
  | _, _ => False

/-- The nodes of a level, from the header on. -/
def LevelChain (list : SkipList α) (level : Nat) (ids : List Nat) : Prop :=
  ∃ first, forward? list.nodes list.header level = some first ∧
    Chain list.nodes level first ids

/-- The list is the sorted list of the members. -/
structure SortedSet (C : Comparison α σ) (list : SkipList α) (members : List α) : Prop where
  iterates : ∃ values, list.iterate = some values ∧
    values.Pairwise (fun v w => C.order v w = .lt) ∧ values.Perm members
  length : list.length = members.length
  chains : ∀ level < skiplistLevelMax, ∃ upper lower, LevelChain list (level + 1) upper ∧
    LevelChain list level lower ∧ upper.Sublist lower

/-- The list is the sorted set before and after each of the calls, each call returns
and its answer is that of the set. -/
def Serves (C : Comparison α σ) : SkipList α → List α → List (Action α σ) → Prop
  | list, members, [] => SortedSet C list members
  | list, members, a :: as => SortedSet C list members ∧
      ∃ answer list', step C list a = some (answer, list') ∧ Agrees C members a answer ∧
        Serves C list' (after C members a) as

/-- The values of the nodes. -/
def values (entries : List (Entry (Option α))) : List α := entries.filterMap Entry.value

variable {C : Comparison α σ} {list : SkipList α} {cmp : α → Int} {members : List α}
  {entries before behind : List (Entry (Option α))} {found : Option (Entry (Option α))}
  {e : Entry (Option α)} {v value : α}

theorem values_append (A B : List (Entry (Option α))) : values (A ++ B) = values A ++ values B :=
  List.filterMap_append

theorem values_cons (hv : e.value = some v) : values (e :: entries) = v :: values entries := by
  rw [values, List.filterMap_cons, hv]
  rfl

theorem mem_values : v ∈ values entries ↔ ∃ e ∈ entries, e.value = some v :=
  List.mem_filterMap

theorem length_values (h : ∀ e ∈ entries, e.value.isSome) :
    (values entries).length = entries.length := by
  induction entries with
  | nil => rfl
  | cons e rest ih =>
      obtain ⟨v, hv⟩ := Option.isSome_iff_exists.mp (h e List.mem_cons_self)
      rw [values_cons hv, List.length_cons, List.length_cons,
        ih fun z hz => h z (List.mem_cons_of_mem _ hz)]

theorem pairwise_values (h : Ordered C entries) :
    (values entries).Pairwise fun v w => C.order v w = .lt := by
  rw [values, List.pairwise_filterMap]
  exact h.less.imp fun hless v hv w hw => hless v w hv hw

/-- The iteration goes through the values of the nodes behind the one it is at. -/
theorem iterateFrom_eq {X Y : List (Entry (Option α))} {turns : Nat}
    (hholds : HoldsTo list.nodes (X ++ e :: Y) fun _ => none) (hpos : 0 < e.height)
    (hY : ∀ z ∈ Y, 0 < z.height ∧ z.value.isSome) (hturns : Y.length < turns) :
    iterateFrom list turns e.id = some (values Y) := by
  induction Y generalizing X e turns with
  | nil =>
      obtain ⟨turns, rfl⟩ := Nat.exists_eq_succ_of_ne_zero (Nat.ne_of_gt hturns)
      have hnext := hholds.forward? hpos
      rw [iterateFrom, skiplistIterNext, hnext]
      rfl
  | cons z Y ih =>
      obtain ⟨turns, rfl⟩ := Nat.exists_eq_succ_of_ne_zero (Nat.ne_of_gt (Nat.zero_lt_of_lt hturns))
      obtain ⟨hz, hvalue⟩ := hY z List.mem_cons_self
      obtain ⟨v, hv⟩ := Option.isSome_iff_exists.mp hvalue
      have hnext := hholds.forward? hpos
      rw [succAt_cons, if_pos hz] at hnext
      obtain ⟨next, hnode⟩ := hholds.find? (e := z)
        (List.mem_append_right _ (List.mem_cons_of_mem _ List.mem_cons_self))
      have hread : (z.node next).value = some v := hv
      have hiter : skiplistIterNext list e.id = some (some z.id, some v) := by
        rw [skiplistIterNext, hnext]
        show (list.nodes.find? z.id).bind _ = _
        rw [hnode, Option.bind_some, hread]
        rfl
      have hrest : iterateFrom list turns z.id = some (values Y) := by
        refine ih (X := X ++ [e]) ?_ hz (fun y hy => hY y (List.mem_cons_of_mem _ hy)) ?_
        · rw [List.append_assoc]
          exact hholds
        · exact Nat.lt_of_succ_lt_succ hturns
      rw [iterateFrom, hiter]
      show (iterateFrom list turns z.id).map _ = _
      rw [hrest, values_cons hv]
      rfl

theorem iterate_eq (h : Sound C list entries) : list.iterate = some (values entries) := by
  refine iterateFrom_eq (X := []) (e := headerEntry list) h.holds (Nat.succ_pos _) ?_ ?_
  · exact fun z hz => ⟨(h.height z hz).1, h.ordered.value z hz⟩
  · rw [h.length]
    exact Nat.lt_succ_self _

theorem levelChain (h : Sound C list entries) {level : Nat} (hlevel : level ≤ skiplistLevelMax) :
    LevelChain list level ((entries.filter fun e => decide (level < e.height)).map Entry.id) := by
  refine ⟨succAt level entries, ?_, HoldsTo.chain h.holds.2 level⟩
  have hholds : HoldsTo list.nodes ([] ++ headerEntry list :: entries) fun _ => none := h.holds
  have hforward := hholds.forward? (Nat.lt_succ_of_le hlevel)
  rw [Option.or_none] at hforward
  exact hforward

theorem sortedSet_of_sound (h : Sound C list entries) (hmembers : (values entries).Perm members) :
    SortedSet C list members where
  iterates := ⟨values entries, iterate_eq h, pairwise_values h.ordered, hmembers⟩
  length := by
    rw [h.length, ← length_values h.ordered.value]
    exact hmembers.length_eq
  chains level hlevel := ⟨_, _, levelChain h hlevel, levelChain h (Nat.le_of_lt hlevel),
    sublist_level entries level⟩

/-- The only member that what is looked for is equal to is the one that is found. -/
theorem mem_found (hsplit : Split cmp entries before found behind)
    (hmembers : (values entries).Perm members) :
    (∃ e ∈ found, e.value = some v) ↔ v ∈ members ∧ skiplistCmpNormalize (cmp v) = .eq := by
  constructor
  · rintro ⟨e, he, hv⟩
    obtain ⟨w, hw, hside⟩ := hsplit.found e he
    obtain rfl := Option.some.inj (hw.symm.trans hv)
    refine ⟨hmembers.mem_iff.mp (mem_values.mpr ⟨e, ?_, hv⟩), hside⟩
    exact Sound.mem_of_split hsplit (List.mem_append_left _ (Option.mem_toList.mpr he))
  · rintro ⟨hmem, hside⟩
    obtain ⟨e, he, hv⟩ := mem_values.mp (hmembers.mem_iff.mpr hmem)
    have hother : ∀ side, side ≠ .eq → ¬Stands cmp side e := by
      rintro side hne ⟨w, hw, hcmp⟩
      obtain rfl := Option.some.inj (hw.symm.trans hv)
      exact hne (hcmp.symm.trans hside)
    rw [hsplit.eq] at he
    rcases List.mem_append.mp he with he | he
    · exact absurd (hsplit.before e he) (hother .lt (by decide))
    · rcases List.mem_append.mp he with he | he
      · exact ⟨e, Option.mem_toList.mp he, hv⟩
      · exact absurd (hsplit.behind e he) (hother .gt (by decide))

theorem any_eq_found (hsplit : Split cmp entries before found behind)
    (hmembers : (values entries).Perm members) :
    found.isSome = members.any fun w => skiplistCmpNormalize (cmp w) == .eq := by
  rw [Bool.eq_iff_iff, List.any_eq_true, Option.isSome_iff_exists]
  simp only [beq_iff_eq]
  constructor
  · rintro ⟨e, he⟩
    obtain ⟨v, hv, -⟩ := hsplit.found e he
    exact ⟨v, (mem_found hsplit hmembers).mp ⟨e, he, hv⟩⟩
  · rintro ⟨v, hv⟩
    obtain ⟨e, he, -⟩ := (mem_found hsplit hmembers).mpr hv
    exact ⟨e, he⟩

theorem find?_eq_found (hsplit : Split cmp entries before found behind)
    (hmembers : (values entries).Perm members) :
    found.bind Entry.value = members.find? fun w => skiplistCmpNormalize (cmp w) == .eq := by
  have hany := any_eq_found hsplit hmembers
  cases hfind : members.find? fun w => skiplistCmpNormalize (cmp w) == .eq with
  | none =>
      have hnone : (members.any fun w => skiplistCmpNormalize (cmp w) == .eq) = false := by
        rw [List.any_eq_false]
        exact List.find?_eq_none.mp hfind
      rw [hnone, Option.isSome_eq_false_iff, Option.isNone_iff_eq_none] at hany
      rw [hany]
      rfl
  | some w =>
      have hside := List.find?_some hfind
      rw [beq_iff_eq] at hside
      obtain ⟨e, he, hv⟩ :=
        (mem_found hsplit hmembers).mpr ⟨List.mem_of_find?_eq_some hfind, hside⟩
      rw [he]
      exact hv

theorem filter_values {side : Ordering} (h : ∀ e ∈ entries, Stands (C.cmpFn · value) side e) :
    without C value (values entries) = if side = .eq then [] else values entries := by
  have hside : ∀ v ∈ values entries, C.order v value = side := by
    intro v hv
    obtain ⟨e, he, hvalue⟩ := mem_values.mp hv
    exact stands_order (h e he) hvalue rfl
  split_ifs with heq
  · refine List.filter_eq_nil_iff.mpr fun v hv => ?_
    rw [hside v hv, heq]
    decide
  · refine List.filter_eq_self.mpr fun v hv => ?_
    rw [hside v hv, bne_iff_ne]
    exact heq

/-- What is left of the set are the values before the place and behind it. -/
theorem without_perm (hsplit : Split (C.cmpFn · value) entries before found behind)
    (hmembers : (values entries).Perm members) :
    (values (before ++ behind)).Perm (without C value members) := by
  have hfound : ∀ e ∈ found.toList, Stands (C.cmpFn · value) .eq e := fun e he =>
    hsplit.found e (Option.mem_toList.mp he)
  have hleft : without C value (values entries) = values (before ++ behind) := by
    rw [hsplit.eq, values_append, values_append, values_append, without, List.filter_append,
      List.filter_append]
    exact congrArg₂ (· ++ ·) (filter_values hsplit.before)
      (congrArg₂ (· ++ ·) (filter_values hfound) (filter_values hsplit.behind))
  rw [← hleft]
  exact hmembers.filter _

theorem skiplistContains_eq (h : Sound C list entries)
    (hsplit : Split (C.cmpFn · value) entries before found behind) :
    skiplistContains C list value = some found.isSome := by
  rw [skiplistContains, opContains]
  cases found with
  | some x =>
      rw [h.walk_finish hsplit]
      rfl
  | none =>
      obtain ⟨cur, update, hwalk, -⟩ := h.walk_bottom hsplit true (.inl rfl)
      rw [hwalk]
      rfl

theorem skiplistSearch_eq (h : Sound C list entries) {search : σ}
    (hsplit : Split (C.searchFn · search) entries before found behind) :
    skiplistSearch C list search = some (found.bind Entry.value) := by
  rw [skiplistSearch, opSearch]
  cases found with
  | some x =>
      obtain ⟨next, hnode⟩ := h.find? (Sound.mem_of_split hsplit List.mem_cons_self)
      rw [h.walk_finish hsplit, Option.bind_some]
      show (list.nodes.find? x.id).map Node.value = _
      rw [hnode]
      rfl
  | none =>
      obtain ⟨cur, update, hwalk, -⟩ := h.walk_bottom hsplit true (.inl rfl)
      rw [hwalk]
      rfl

/-- Each call returns what the set answers, and leaves the set that comes after. -/
theorem step_spec (h : Sound C list entries) (hmembers : (values entries).Perm members)
    (a : Action α σ) :
    ∃ answer list' entries', step C list a = some (answer, list') ∧ Agrees C members a answer ∧
      Sound C list' entries' ∧ (values entries').Perm (after C members a) := by
  cases a with
  | insert value newNodeLevel =>
      obtain ⟨before, found, behind, hsplit⟩ := exists_split (places_value C value) h.ordered
      obtain ⟨n, list', hinsert, hn, hsound⟩ :=
        h.skiplistInsert hsplit (Nat.le_of_lt_succ newNodeLevel.isLt)
      refine ⟨.done true, list', _, ?_, rfl, hsound, ?_⟩
      · rw [step, hinsert]
        rfl
      · rw [values_append, values_cons hn]
        refine List.perm_middle.trans (List.Perm.cons value ?_)
        rw [← values_append]
        exact without_perm hsplit hmembers
  | delete value =>
      obtain ⟨before, found, behind, hsplit⟩ := exists_split (places_value C value) h.ordered
      obtain ⟨list', hdelete, hsound⟩ := h.skiplistDelete hsplit
      refine ⟨.done found.isSome, list', _, ?_, any_eq_found hsplit hmembers, hsound,
        without_perm hsplit hmembers⟩
      rw [step, hdelete]
      rfl
  | contains value =>
      obtain ⟨before, found, behind, hsplit⟩ := exists_split (places_value C value) h.ordered
      refine ⟨.done found.isSome, list, entries, ?_, any_eq_found hsplit hmembers, h, hmembers⟩
      rw [step, skiplistContains_eq h hsplit]
      rfl
  | search search =>
      obtain ⟨before, found, behind, hsplit⟩ := exists_split (places_search C search) h.ordered
      refine ⟨.found (found.bind Entry.value), list, entries, ?_,
        find?_eq_found hsplit hmembers, h, hmembers⟩
      rw [step, skiplistSearch_eq h hsplit]
      rfl
  | iterate =>
      refine ⟨.values (values entries), list, entries, ?_, ?_, h, hmembers⟩
      · rw [step, iterate_eq h]
        rfl
      · exact ⟨pairwise_values h.ordered, hmembers⟩

theorem serves_of_sound (h : Sound C list entries) (hmembers : (values entries).Perm members)
    (as : List (Action α σ)) : Serves C list members as := by
  induction as generalizing list entries members with
  | nil => exact sortedSet_of_sound h hmembers
  | cons a as ih =>
      obtain ⟨answer, list', entries', hstep, hagrees, hsound, hafter⟩ := step_spec h hmembers a
      exact ⟨sortedSet_of_sound h hmembers, answer, list', hstep, hagrees, ih hsound hafter⟩

theorem sound_init (C : Comparison α σ) : Sound C (skiplistInit : SkipList α) [] where
  holds := ⟨rfl, trivial⟩
  nodup := List.nodup_singleton _
  ordered := ⟨fun _ he => absurd he List.not_mem_nil, List.Pairwise.nil⟩
  height _ he := absurd he List.not_mem_nil
  levels_le := Nat.succ_le_succ (Nat.zero_le _)
  length := rfl

/-- Over every sequence of calls, with any levels for the nodes, the skip list is the
sorted set of the values. -/
theorem skiplist_serves (C : Comparison α σ) (as : List (Action α σ)) :
    Serves C skiplistInit [] as :=
  serves_of_sound (sound_init C) (List.Perm.refl _) as

theorem isLE_difference (v w : Int) : (skiplistCmpNormalize (v - w)).isLE = decide (v ≤ w) := by
  rw [skiplistCmpNormalize]
  split_ifs with hlt hgt
  · exact (decide_eq_true (by omega)).symm
  · exact (decide_eq_false (by omega)).symm
  · exact (decide_eq_true (by omega)).symm

theorem trans_difference :
    Std.TransCmp fun v w : Int => skiplistCmpNormalize (v - w) where
  eq_swap := by
    intro v w
    rw [skiplistCmpNormalize, skiplistCmpNormalize]
    split_ifs <;> first | rfl | omega
  isLE_trans := by
    intro v w z hvw hwz
    rw [isLE_difference, decide_eq_true_eq] at hvw hwz ⊢
    exact Int.le_trans hvw hwz

theorem consistent_difference (v w search : Int) (hlt : skiplistCmpNormalize (v - w) = .lt)
    (hle : skiplistCmpNormalize (w - search) ≠ .gt) :
    skiplistCmpNormalize (v - search) = .lt := by
  rw [skiplistCmpNormalize] at hlt hle ⊢
  split_ifs at hlt hle ⊢ <;> first | rfl | omega | contradiction

/-- The order of the integers, by their difference. -/
def byDifference : Comparison Int Int where
  cmpFn v w := v - w
  searchFn v search := v - search
  trans := trans_difference
  consistent := consistent_difference

example : (((step byDifference skiplistInit (.insert 5 3)).bind fun r =>
    (step byDifference r.2 (.insert 2 0)).bind fun r =>
      step byDifference r.2 (.insert 5 1)).bind fun r => r.2.iterate) = some [2, 5] := by
  decide +kernel

end FastDCS.SortedSets
