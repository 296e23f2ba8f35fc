import FastDCS.SkipListWalks

/-!
What `skiplist_insert` and `skiplist_delete` do to a list that is in order: level by
level a node is put in at its place, or spliced out of it.
-/

namespace FastDCS.SkipLists

open Heaps
open Towers

variable {α σ : Type} {C : Comparison α σ} {list : SkipList α}
  {nodes : Heap (Node (Option α))} {A B entries before behind : List (Entry (Option α))}
  {n x : Entry (Option α)} {found : Option (Entry (Option α))} {update : Nat → Option Nat}
  {cmp : α → Int} {value : α}

/-- The new node is in the levels below `level`. -/
structure DroppedTo (A B : List (Entry (Option α))) (n : Entry (Option α)) (level : Nat)
    (nodes : Heap (Node (Option α))) : Prop where
  before : HoldsTo nodes A fun l => if l < level then some n.id else succAt l B
  new : nodes.find? n.id = some (n.node fun l => if l < level then succAt l B else none)
  behind : HoldsTo nodes B fun _ => none

/-- The pointers of a level are changed when the loop has gone through it. -/
theorem update_below (next next' : Nat → Option Nat) (level : Nat) :
    Function.update (fun l => if l < level then next l else next' l) level (next level) =
      fun l => if l < level + 1 then next l else next' l := by
  funext l
  rw [Function.update_apply]
  rcases Nat.lt_trichotomy l level with hlt | rfl | hgt
  · rw [if_neg (Nat.ne_of_lt hlt), if_pos hlt, if_pos (Nat.lt_succ_of_lt hlt)]
  · rw [if_pos rfl, if_pos (Nat.lt_succ_self l)]
  · rw [if_neg (Nat.ne_of_gt hgt), if_neg (Nat.not_lt_of_gt hgt),
      if_neg (Nat.not_lt_of_le hgt)]

theorem droppedTo_step {level : Nat} (hnodup : (A.map Entry.id).Nodup)
    (hnA : n.id ∉ A.map Entry.id) (hnB : n.id ∉ B.map Entry.id)
    (hAB : ∀ e ∈ B, e.id ∉ A.map Entry.id) (hlevel : level < n.height)
    (hupdate : ∃ p, update level = some p ∧ IsLastAt level A p)
    (h : DroppedTo A B n level nodes) :
    ∃ nodes', dropIn n.id update nodes level = some nodes' ∧
      DroppedTo A B n (level + 1) nodes' := by
  obtain ⟨p, hp, hlast⟩ := hupdate
  have hnext : forward? nodes p level = some (succAt level B) := by
    rw [h.before.forward?_of_isLastAt hlast, if_neg (Nat.lt_irrefl level)]
  obtain ⟨nodes₁, hset₁, hnew, hsame₁⟩ := exists_setForward h.new hlevel (succAt level B)
  have hbefore₁ := h.before.of_find?_eq fun e he => hsame₁ e.id fun heq =>
    hnA (heq ▸ List.mem_map_of_mem he)
  obtain ⟨nodes₂, hset₂, hbefore₂, hsame₂⟩ := hbefore₁.setForward hnodup hlast (some n.id)
  refine ⟨nodes₂, ?_, ?_, ?_, ?_⟩
  · rw [dropIn, hp, Option.bind_eq_bind, Option.bind_some, hnext, Option.bind_eq_bind,
      Option.bind_some, hset₁, Option.bind_eq_bind, Option.bind_some, hset₂]
  · rw [update_below (fun _ => some n.id)] at hbefore₂
    exact hbefore₂
  · rw [hsame₂ n.id hnA, hnew, update_below (fun l => succAt l B)]
  · refine h.behind.of_find?_eq fun e he => ?_
    rw [hsame₂ e.id (hAB e he), hsame₁ e.id fun heq => hnB (heq ▸ List.mem_map_of_mem he)]

/-- When the loop has gone through all its levels the new node is in the list. -/
theorem DroppedTo.holds (h : DroppedTo A B n n.height nodes) :
    HoldsTo nodes (A ++ n :: B) fun _ => none := by
  refine holdsTo_append.mpr ⟨h.before.congr fun e _ l _ => ?_, ?_, h.behind⟩
  · rw [Option.or_none, succAt_cons]
  · rw [h.new]
    congr 1
    refine node_congr fun l hl => ?_
    rw [if_pos hl, Option.or_none]

theorem stands_order {e : Entry (Option α)} {side : Ordering} {v w : α}
    (hside : Stands (C.cmpFn · value) side e) (hv : e.value = some v) (hw : w = value) :
    C.order v w = side := by
  obtain ⟨u, hu, hcmp⟩ := hside
  obtain rfl := Option.some.inj (hu.symm.trans hv)
  rw [hw]
  exact hcmp

theorem Ordered.remove (h : Ordered C (before ++ (found.toList ++ behind))) :
    Ordered C (before ++ behind) := by
  have hsublist : (before ++ behind).Sublist (before ++ (found.toList ++ behind)) :=
    List.Sublist.append_left (List.sublist_append_right _ _) _
  exact ⟨fun e he => h.value e (hsublist.subset he), h.less.sublist hsublist⟩

/-- The value comes between those before its place and those behind it. -/
theorem Ordered.insert (h : Ordered C (before ++ behind)) (hn : n.value = some value)
    (hbefore : ∀ e ∈ before, Stands (C.cmpFn · value) .lt e)
    (hbehind : ∀ e ∈ behind, Stands (C.cmpFn · value) .gt e) :
    Ordered C (before ++ n :: behind) := by
  obtain ⟨hlessBefore, hlessBehind, hacross⟩ := List.pairwise_append.mp h.less
  constructor
  · intro e he
    rcases List.mem_append.mp he with he | he
    · exact h.value e (List.mem_append_left _ he)
    · rcases List.mem_cons.mp he with rfl | he
      · rw [hn]
        rfl
      · exact h.value e (List.mem_append_right _ he)
  · refine List.pairwise_append.mpr ⟨hlessBefore, ?_, fun a ha b hb v w hv hw => ?_⟩
    · refine List.pairwise_cons.mpr ⟨fun b hb v w hv hw => ?_, hlessBehind⟩
      have heq : v = value := Option.some.inj (hv.symm.trans hn)
      have hgt := stands_order (hbehind b hb) hw heq
      exact Std.OrientedCmp.lt_of_gt hgt
    · rcases List.mem_cons.mp hb with rfl | hb
      · exact stands_order (hbefore a ha) hv (Option.some.inj (hw.symm.trans hn))
      · exact hacross a ha b hb v w hv hw

theorem Sound.split_nodup (h : Sound C list entries)
    (hsplit : Split cmp entries before found behind) :
    ((headerEntry list :: before).map Entry.id).Nodup ∧
      ((found.toList ++ behind).map Entry.id).Nodup ∧
      ∀ e ∈ found.toList ++ behind, e.id ∉ (headerEntry list :: before).map Entry.id := by
  have hnodup := h.nodup
  rw [hsplit.eq, ← List.cons_append, List.map_append, List.nodup_append] at hnodup
  obtain ⟨hbefore, hbehind, hdisjoint⟩ := hnodup
  refine ⟨hbefore, hbehind, fun e he hmem => ?_⟩
  exact hdisjoint e.id hmem e.id (List.mem_map_of_mem he) rfl

theorem Sound.next_not_mem (h : Sound C list entries) :
    list.nodes.next ∉ (headerEntry list :: entries).map Entry.id := by
  intro hmem
  obtain ⟨e, he, heq⟩ := List.mem_map.mp hmem
  obtain ⟨next, hnode⟩ := h.holds.find? he
  rw [heq, Heap.find?_next] at hnode
  cases hnode

/-- `skiplist_insert` behind its loop, where no value is equal. -/
theorem Sound.insertNew (h : Sound C list entries)
    (hsplit : Split (C.cmpFn · value) entries before none behind)
    (hupdate : ∀ level < list.levels, ∃ p, update level = some p ∧
      IsLastAt level (headerEntry list :: before) p)
    {newNodeLevel : Nat} (hlevel : newNodeLevel ≤ skiplistLevelMax) :
    ∃ n list', list.insertNew update value newNodeLevel = some list' ∧
      n.value = some value ∧ Sound C list' (before ++ n :: behind) := by
  have heq : entries = before ++ behind := hsplit.eq
  have hfresh := h.next_not_mem
  obtain ⟨hnodup, hnodupBehind, hdisjoint⟩ := h.split_nodup hsplit
  let n : Entry (Option α) := ⟨list.nodes.next, some value, newNodeLevel + 1⟩
  let update' : Nat → Option Nat := fun level =>
    if list.levels ≤ level ∧ level ≤ newNodeLevel then some list.header else update level
  have hnA : n.id ∉ (headerEntry list :: before).map Entry.id := by
    intro hmem
    refine hfresh ?_
    rw [heq, ← List.cons_append, List.map_append]
    exact List.mem_append_left _ hmem
  have hnB : n.id ∉ behind.map Entry.id := by
    intro hmem
    refine hfresh ?_
    rw [heq, ← List.cons_append, List.map_append]
    exact List.mem_append_right _ hmem
  have hstart : DroppedTo (headerEntry list :: before) behind n 0
      (list.nodes.alloc (skiplistNodeNew newNodeLevel (some value))) := by
    have hholds : HoldsTo (list.nodes.alloc (skiplistNodeNew newNodeLevel (some value)))
        ((headerEntry list :: before) ++ behind) fun _ => none := by
      have hholds := h.holds
      rw [heq] at hholds
      refine hholds.of_find?_eq fun e he => ?_
      have hne : e.id ≠ list.nodes.next := by
        intro hid
        refine hfresh ?_
        rw [heq, ← hid]
        exact List.mem_map_of_mem he
      rw [Heap.find?_alloc, if_neg hne]
    obtain ⟨hbefore, hbehind⟩ := holdsTo_append.mp hholds
    refine ⟨hbefore.congr fun _ _ l _ => ?_, ?_, hbehind⟩
    · rw [if_neg (Nat.not_lt_zero l), Option.or_none]
    · rw [Heap.find?_alloc, if_pos rfl, skiplistNodeNew, Entry.node]
      simp [n]
  have hturn : ∀ level < newNodeLevel + 1, ∃ p, update' level = some p ∧
      IsLastAt level (headerEntry list :: before) p := by
    intro level hlt
    by_cases hnew : list.levels ≤ level
    · refine ⟨list.header, if_pos ⟨hnew, Nat.le_of_lt_succ hlt⟩, [], headerEntry list, before, rfl,
        rfl, ?_, fun z hz => ?_⟩
      · exact Nat.lt_of_lt_of_le hlt (Nat.succ_le_succ hlevel)
      · refine Nat.le_trans (h.height z ?_).2 hnew
        rw [heq]
        exact List.mem_append_left _ hz
    · obtain ⟨p, hp, hlast⟩ := hupdate level (Nat.lt_of_not_le hnew)
      refine ⟨p, ?_, hlast⟩
      show (if _ then _ else _) = _
      rw [if_neg fun hboth => hnew hboth.1, hp]
  have hlevels : ∀ levels, levels = (if list.levels ≤ newNodeLevel then newNodeLevel + 1
      else list.levels) → list.levels ≤ levels ∧ newNodeLevel + 1 ≤ levels ∧
        levels ≤ skiplistLevelMax + 1 := by
    have hle := h.levels_le
    rintro levels rfl
    split_ifs <;> omega
  obtain ⟨hgrows, hnew, hle⟩ := hlevels _ rfl
  obtain ⟨nodes', hloop, hdropped⟩ := exists_foldlM_range (newNodeLevel + 1) hstart
    fun level hlt nodes hnodes =>
      droppedTo_step hnodup hnA hnB hdisjoint hlt (hturn level hlt) hnodes
  refine ⟨n, ⟨nodes', list.header,
    if list.levels ≤ newNodeLevel then newNodeLevel + 1 else list.levels, list.length + 1⟩, ?_, rfl,
    hdropped.holds, ?_, ?_, fun e he => ?_, ?_, ?_⟩
  · rw [SkipList.insertNew]
    exact congrArg (fun o => Option.bind o _) hloop
  · have hperm : ((headerEntry list :: (before ++ n :: behind)).map Entry.id).Perm
        (n.id :: (headerEntry list :: entries).map Entry.id) := by
      have hmiddle : ((headerEntry list :: before) ++ n :: behind).Perm
          (n :: ((headerEntry list :: before) ++ behind)) := List.perm_middle
      rw [heq, ← List.map_cons]
      exact hmiddle.map Entry.id
    exact hperm.nodup_iff.mpr (List.nodup_cons.mpr ⟨hfresh, h.nodup⟩)
  · have hordered := h.ordered
    rw [heq] at hordered
    exact hordered.insert rfl hsplit.before hsplit.behind
  · have hmem : e = n ∨ e ∈ entries := by
      rw [heq]
      exact List.mem_cons.mp (List.perm_middle.mem_iff.mp he)
    rcases hmem with rfl | hold
    · exact ⟨Nat.succ_pos _, hnew⟩
    · obtain ⟨hpos, hheight⟩ := h.height e hold
      exact ⟨hpos, Nat.le_trans hheight hgrows⟩
  · exact hle
  · show list.length + 1 = _
    rw [h.length, heq]
    simp only [List.length_append, List.length_cons]
    omega

/-- The node that is found is spliced out of the levels below `level`. -/
structure SplicedTo (A B : List (Entry (Option α))) (x : Entry (Option α)) (level : Nat)
    (nodes : Heap (Node (Option α))) : Prop where
  before : HoldsTo nodes A fun l => if l < level then succAt l B else succAt l (x :: B)
  found : nodes.find? x.id = some (x.node fun l => succAt l B)
  behind : HoldsTo nodes B fun _ => none

theorem splicedTo_step {level : Nat} (hnodup : (A.map Entry.id).Nodup)
    (hxA : x.id ∉ A.map Entry.id) (hxB : x.id ∉ B.map Entry.id)
    (hAB : ∀ e ∈ B, e.id ∉ A.map Entry.id)
    (hupdate : ∃ p, update level = some p ∧ IsLastAt level A p)
    (h : SplicedTo A B x level nodes) :
    ∃ nodes', splice x.id update nodes level = some nodes' ∧
      SplicedTo A B x (level + 1) nodes' := by
  obtain ⟨p, hp, hlast⟩ := hupdate
  have hnext : forward? nodes p level = some (succAt level (x :: B)) := by
    rw [h.before.forward?_of_isLastAt hlast, if_neg (Nat.lt_irrefl level)]
  by_cases hx : level < x.height
  · have hsucc : succAt level (x :: B) = some x.id := by rw [succAt_cons, if_pos hx]
    obtain ⟨nodes', hset, hbefore, hsame⟩ := h.before.setForward hnodup hlast (succAt level B)
    refine ⟨nodes', ?_, ?_, ?_, ?_⟩
    · rw [splice, hp, Option.bind_eq_bind, Option.bind_some, hnext, Option.bind_eq_bind,
        Option.bind_some, if_pos hsucc, Towers.forward?, h.found, Option.bind_some,
        node_forward x _ hx]
      exact hset
    · rw [update_below (fun l => succAt l B)] at hbefore
      exact hbefore
    · rw [hsame x.id hxA, h.found]
    · exact h.behind.of_find?_eq fun e he => hsame e.id (hAB e he)
  · have hsucc : succAt level (x :: B) = succAt level B := by rw [succAt_cons, if_neg hx]
    have hne : succAt level B ≠ some x.id := by
      intro heq
      obtain ⟨front, e, rest, hB, hid, -⟩ := succAt_eq_some heq
      refine hxB ?_
      rw [hB, ← hid]
      exact List.mem_map_of_mem (List.mem_append_right _ List.mem_cons_self)
    refine ⟨nodes, ?_, ?_, h.found, h.behind⟩
    · rw [splice, hp, Option.bind_eq_bind, Option.bind_some, hnext, Option.bind_eq_bind,
        Option.bind_some, hsucc, if_neg hne]
      rfl
    · rw [← update_below (fun l => succAt l B), ← hsucc]
      refine h.before.congr fun e _ l _ => ?_
      rcases eq_or_ne l level with rfl | hne
      · rw [Function.update_self, if_neg (Nat.lt_irrefl l)]
      · rw [Function.update_of_ne hne]

/-- The levels that are left are those that a node has. -/
theorem usedLevels_spec (forward : List (Option Nat)) (levels : Nat)
    (hforward : ∀ level < levels, forward[level]? = some (succAt level B))
    (hheight : ∀ e ∈ B, e.height ≤ levels) :
    ∃ used, usedLevels forward levels = some used ∧ used ≤ levels ∧
      ∀ e ∈ B, e.height ≤ used := by
  induction levels with
  | zero => exact ⟨0, rfl, Nat.le_refl 0, hheight⟩
  | succ level ih =>
      rw [usedLevels, hforward level (Nat.lt_succ_self level), Option.bind_some]
      cases hsucc : succAt level B with
      | some p => exact ⟨level + 1, rfl, Nat.le_refl _, hheight⟩
      | none =>
          obtain ⟨used, hused, hle, hall⟩ :=
            ih (fun l hl => hforward l (Nat.lt_succ_of_lt hl)) (succAt_eq_none_iff.mp hsucc)
          exact ⟨used, hused, Nat.le_succ_of_le hle, hall⟩

/-- `skiplist_delete` where it has found the node. -/
theorem Sound.remove (h : Sound C list entries)
    (hsplit : Split cmp entries before (some x) behind)
    (hupdate : ∀ level < list.levels, ∃ p, update level = some p ∧
      IsLastAt level (headerEntry list :: before) p) :
    ∃ list', list.remove update x.id = some list' ∧ Sound C list' (before ++ behind) := by
  have heq : entries = before ++ x :: behind := hsplit.eq
  obtain ⟨hnodup, hnodupBehind, hdisjoint⟩ := h.split_nodup hsplit
  obtain ⟨hxB, -⟩ := List.nodup_cons.mp hnodupBehind
  have hxA := hdisjoint x List.mem_cons_self
  have hAB : ∀ e ∈ behind, e.id ∉ (headerEntry list :: before).map Entry.id :=
    fun e he => hdisjoint e (List.mem_cons_of_mem _ he)
  have hstart : SplicedTo (headerEntry list :: before) behind x 0 list.nodes := by
    have hholds := h.holds
    rw [heq, ← List.cons_append] at hholds
    obtain ⟨hbefore, hfound, hbehind⟩ := holdsTo_append.mp hholds
    refine ⟨hbefore.congr fun _ _ l _ => ?_, ?_, hbehind⟩
    · rw [if_neg (Nat.not_lt_zero l), Option.or_none]
    · simpa only [Option.or_none] using hfound
  obtain ⟨nodes₁, hloop, hspliced⟩ := exists_foldlM_range list.levels hstart
    fun level hlt nodes hnodes => splicedTo_step hnodup hxA hxB hAB (hupdate level hlt) hnodes
  obtain ⟨nodes₂, hdelete⟩ := nodes₁.exists_delete (p := x.id) (by rw [hspliced.found]; rfl)
  have hheight : ∀ e ∈ before ++ behind, 0 < e.height ∧ e.height ≤ list.levels := by
    intro e he
    refine h.height e ?_
    rw [heq]
    exact (List.Sublist.append_left (List.sublist_cons_self x behind) before).subset he
  have hholds : HoldsTo nodes₂ (headerEntry list :: (before ++ behind)) fun _ => none := by
    rw [← List.cons_append]
    refine holdsTo_append.mpr ⟨?_, ?_⟩
    · refine HoldsTo.of_find?_eq (hspliced.before.congr fun e _ l _ => ?_) fun e he => ?_
      · rw [Option.or_none]
        split_ifs with hl
        · rfl
        · have hx := (h.height x (by
            rw [heq]
            exact List.mem_append_right _ List.mem_cons_self)).2
          rw [succAt_cons, if_neg (by omega)]
      · have hne : e.id ≠ x.id := fun hid => hxA (hid ▸ List.mem_map_of_mem he)
        rw [Heap.find?_delete hdelete, if_neg hne]
    · refine hspliced.behind.of_find?_eq fun e he => ?_
      have hne : e.id ≠ x.id := fun hid => hxB (hid ▸ List.mem_map_of_mem he)
      rw [Heap.find?_delete hdelete, if_neg hne]
  have hheader := hholds.1
  let header := (headerEntry list).node fun level => (succAt level (before ++ behind)).or none
  have hforward : ∀ level < list.levels,
      header.forward[level]? = some (succAt level (before ++ behind)) := by
    intro level hlevel
    rw [node_forward _ _ (Nat.lt_of_lt_of_le hlevel h.levels_le), Option.or_none]
  obtain ⟨used, hused, hle, hall⟩ :=
    usedLevels_spec header.forward list.levels hforward fun e he => (hheight e he).2
  refine ⟨⟨nodes₂, list.header, used, list.length - 1⟩, ?_, hholds, ?_, ?_, ?_, ?_, ?_⟩
  · rw [SkipList.remove, hloop, Option.bind_eq_bind, Option.bind_some, hdelete,
      Option.bind_eq_bind, Option.bind_some]
    show (nodes₂.find? (headerEntry list).id).bind _ = _
    rw [hheader, Option.bind_some, hused]
    rfl
  · have hnodup := h.nodup
    rw [heq] at hnodup
    refine hnodup.sublist (List.Sublist.map _ (List.Sublist.cons_cons _ ?_))
    exact List.Sublist.append_left (List.sublist_cons_self x behind) before
  · have hordered := h.ordered
    rw [hsplit.eq] at hordered
    exact hordered.remove
  · exact fun e he => ⟨(hheight e he).1, hall e he⟩
  · exact Nat.le_trans hle h.levels_le
  · show list.length - 1 = _
    rw [h.length, heq]
    simp only [List.length_append, List.length_cons]
    omega

theorem skiplistCmpNormalize_eq_gt_iff (c : Int) : skiplistCmpNormalize c = .gt ↔ 1 ≤ c := by
  rw [skiplistCmpNormalize]
  split_ifs with hlt hgt
  · exact iff_of_false (by decide) (by omega)
  · exact iff_of_true rfl hgt
  · exact iff_of_false (by decide) hgt

/-- `skiplist_delete` behind its loop: a value that is not behind the place is equal. -/
theorem Sound.deleteAt (h : Sound C list entries)
    (hsplit : Split (C.cmpFn · value) entries before found behind) {curNode : Nat}
    (hlast : ∃ init last, headerEntry list :: before = init ++ [last] ∧ last.id = curNode)
    (hupdate : ∀ level < list.levels, ∃ p, update level = some p ∧
      IsLastAt level (headerEntry list :: before) p) :
    ∃ list', list.deleteAt C value curNode update = some (found.isSome, list') ∧
      Sound C list' (before ++ behind) := by
  obtain ⟨init, last, hinit, rfl⟩ := hlast
  have hpos : 0 < last.height := by
    have hmem : last ∈ headerEntry list :: before := by
      rw [hinit]
      exact List.mem_append_right _ (List.mem_singleton.mpr rfl)
    rcases List.mem_cons.mp hmem with rfl | hmem
    · exact Nat.succ_pos _
    · refine (h.height last ?_).1
      rw [hsplit.eq]
      exact List.mem_append_left _ hmem
  have hnext : forward? list.nodes last.id 0 = some (succAt 0 (found.toList ++ behind)) := by
    have hholds := h.holds
    rw [hsplit.eq, ← List.cons_append, hinit, List.append_assoc, List.singleton_append] at hholds
    rw [hholds.forward? hpos, Option.or_none]
  have hread : ∀ e ∈ found.toList ++ behind, ∀ side, Stands (C.cmpFn · value) side e →
      0 < e.height ∧ ∃ next v, list.nodes.find? e.id = some (e.node next) ∧ e.value = some v ∧
        (1 ≤ C.cmpFn v value ↔ side = .gt) := by
    intro e he side hside
    have hmem := Sound.mem_of_split hsplit he
    obtain ⟨next, hnode⟩ := h.find? hmem
    obtain ⟨v, hv, hcmp⟩ := hside
    exact ⟨(h.height e hmem).1, next, v, hnode, hv, by
      rw [← skiplistCmpNormalize_eq_gt_iff, hcmp]⟩
  cases found with
  | some x =>
      obtain ⟨hx, next, v, hnode, hv, hgt⟩ := hread x List.mem_cons_self .eq (hsplit.found x rfl)
      have hnot : ¬C.cmpFn v value ≥ 1 := fun hge => by cases hgt.mp hge
      have hvalue : (x.node next).value = some v := hv
      obtain ⟨list', hremove, hsound⟩ := h.remove hsplit hupdate
      refine ⟨list', ?_, hsound⟩
      have hsucc : succAt 0 ((some x).toList ++ behind) = some x.id :=
        succAt_cons.trans (if_pos hx)
      rw [SkipList.deleteAt, hnext, hsucc]
      show (list.nodes.find? x.id).bind _ = _
      rw [hnode, Option.bind_some, hvalue, Option.bind_eq_bind, Option.bind_some, if_neg hnot,
        hremove]
      rfl
  | none =>
      have heq : entries = before ++ behind := hsplit.eq
      refine ⟨list, ?_, heq ▸ h⟩
      cases behind with
      | nil =>
          rw [SkipList.deleteAt, hnext]
          rfl
      | cons r rest =>
          obtain ⟨hr, next, v, hnode, hv, hgt⟩ :=
            hread r List.mem_cons_self .gt (hsplit.behind r List.mem_cons_self)
          have hvalue : (r.node next).value = some v := hv
          have hsucc : succAt 0 (Option.toList none ++ r :: rest) = some r.id :=
            succAt_cons.trans (if_pos hr)
          rw [SkipList.deleteAt, hnext, hsucc]
          show (list.nodes.find? r.id).bind _ = _
          rw [hnode, Option.bind_some, hvalue, Option.bind_eq_bind, Option.bind_some,
            if_pos (hgt.mpr rfl)]
          rfl

theorem Sound.skiplistDelete (h : Sound C list entries)
    (hsplit : Split (C.cmpFn · value) entries before found behind) :
    ∃ list', SkipLists.skiplistDelete C list value = some (found.isSome, list') ∧
      Sound C list' (before ++ behind) := by
  obtain ⟨cur, update, hwalk, hlast, hupdate⟩ := h.walk_bottom hsplit false (.inr rfl)
  rw [SkipLists.skiplistDelete, opDelete, hwalk, Option.bind_some]
  exact h.deleteAt hsplit hlast hupdate

/-- Where an equal value is found, its place is that of the value. -/
theorem Split.of_eq {v : α} (hsplit : Split (C.cmpFn · value) entries before found behind)
    (heq : C.order v value = .eq) : Split (C.cmpFn · v) entries before found behind := by
  have hsame : ∀ w, C.order w v = C.order w value := fun w =>
    Std.TransCmp.congr_right heq
  have hstands : ∀ e side, Stands (C.cmpFn · value) side e → Stands (C.cmpFn · v) side e := by
    rintro e side ⟨w, hw, hside⟩
    exact ⟨w, hw, (hsame w).trans hside⟩
  exact ⟨hsplit.eq, fun e he => hstands e _ (hsplit.before e he),
    fun e he => hstands e _ (hsplit.found e he), fun e he => hstands e _ (hsplit.behind e he)⟩

/-- A call that finds no equal value puts the new one in. -/
theorem Sound.insertIn (h : Sound C list entries)
    (hsplit : Split (C.cmpFn · value) entries before none behind) {newNodeLevel : Nat}
    (hlevel : newNodeLevel ≤ skiplistLevelMax) (calls : Nat) :
    ∃ n list', SkipLists.insertIn C value newNodeLevel (calls + 1) list = some (true, list') ∧
      n.value = some value ∧ Sound C list' (before ++ n :: behind) := by
  obtain ⟨cur, update, hwalk, -, hupdate⟩ := h.walk_bottom hsplit true (.inl rfl)
  obtain ⟨n, list', hinsert, hn, hsound⟩ := h.insertNew hsplit hupdate hlevel
  refine ⟨n, list', ?_, hn, hsound⟩
  rw [SkipLists.insertIn, opInsert, hwalk, Option.bind_some]
  show (list.insertNew update value newNodeLevel).map _ = _
  rw [hinsert]
  rfl

theorem Sound.skiplistInsert (h : Sound C list entries)
    (hsplit : Split (C.cmpFn · value) entries before found behind) {newNodeLevel : Nat}
    (hlevel : newNodeLevel ≤ skiplistLevelMax) :
    ∃ n list', SkipLists.skiplistInsert C list value newNodeLevel = some (true, list') ∧
      n.value = some value ∧ Sound C list' (before ++ n :: behind) := by
  cases found with
  | none => exact h.insertIn hsplit hlevel 1
  | some x =>
      have hx := Sound.mem_of_split hsplit List.mem_cons_self
      obtain ⟨next, hnode⟩ := h.find? hx
      obtain ⟨v, hv, heq⟩ := hsplit.found x rfl
      have hvalue : (x.node next).value = some v := hv
      obtain ⟨list₁, hdelete, hsound₁⟩ := h.skiplistDelete (hsplit.of_eq heq)
      have hsplit₁ : Split (C.cmpFn · value) (before ++ behind) before none behind :=
        ⟨rfl, hsplit.before, fun _ hnone => (by cases hnone), hsplit.behind⟩
      obtain ⟨n, list', hinsert, hn, hsound⟩ := hsound₁.insertIn hsplit₁ hlevel 0
      refine ⟨n, list', ?_, hn, hsound⟩
      rw [SkipLists.skiplistInsert, SkipLists.insertIn, opInsert, h.walk_finish hsplit,
        Option.bind_some]
      show (list.nodes.find? x.id).bind _ = _
      rw [hnode, Option.bind_some, hvalue, Option.bind_eq_bind, Option.bind_some, hdelete]
      exact hinsert

end FastDCS.SkipLists
