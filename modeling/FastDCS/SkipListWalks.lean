import FastDCS.SkipLists

/-!
What the loops over the levels find in a list that is in order: the node they stop
at, or the last node before the place, with the nodes to be changed at each level.
-/

namespace FastDCS.SkipLists

open Heaps
open Towers

variable {α σ : Type} {nodes : Heap (Node (Option α))} {choose : Option Nat → Option Op}
  {X Z B : List (Entry (Option α))} {e x : Entry (Option α)} {turns level levels : Nat}
  {update : Nat → Option Nat}

/-- Where the loop is: at a tower that has the levels that are left, the towers
behind it up to the place are no higher, and it goes over them. -/
structure Standing (nodes : Heap (Node (Option α))) (choose : Option Nat → Option Op)
    (X : List (Entry (Option α))) (e : Entry (Option α)) (Z B : List (Entry (Option α)))
    (levels : Nat) : Prop where
  holds : HoldsTo nodes (X ++ e :: (Z ++ B)) fun _ => none
  height : levels ≤ e.height
  low : ∀ z ∈ Z, 0 < z.height ∧ z.height ≤ levels
  goes : ∀ z ∈ Z, choose (some z.id) = some .gotoNextNode

theorem Standing.forward? (h : Standing nodes choose X e Z B (level + 1)) :
    Towers.forward? nodes e.id level = some ((succAt level Z).or (succAt level B)) := by
  rw [h.holds.forward? h.height, succAt_append, Option.or_none]

/-- A turn that goes to the next node. -/
theorem Standing.next (h : Standing nodes choose X e Z B (level + 1)) {p : Nat}
    (hp : succAt level Z = some p) (turns : Nat) (update : Nat → Option Nat) :
    ∃ before z behind, Z = before ++ z :: behind ∧
      Standing nodes choose (X ++ e :: before) z behind B (level + 1) ∧
      walk nodes choose (turns + 1) e.id (level + 1) update =
        walk nodes choose turns z.id (level + 1) (Function.update update level (some z.id)) := by
  obtain ⟨before, z, behind, rfl, rfl, hlevel, -⟩ := succAt_eq_some hp
  have hbehind : ∀ y ∈ behind, y ∈ before ++ z :: behind := fun y hy =>
    List.mem_append_right _ (List.mem_cons_of_mem _ hy)
  refine ⟨before, z, behind, rfl, ⟨?_, hlevel, fun y hy => h.low y (hbehind y hy),
    fun y hy => h.goes y (hbehind y hy)⟩, ?_⟩
  · have hholds := h.holds
    simp only [List.append_assoc, List.cons_append] at hholds ⊢
    exact hholds
  · rw [walk, h.forward?, hp, Option.some_or, Option.bind_some,
      h.goes z (List.mem_append_right _ List.mem_cons_self)]

/-- A turn that goes to the next level, behind which the node is not gone over. -/
theorem Standing.down (h : Standing nodes choose X e Z B (level + 1))
    (hnone : succAt level Z = none)
    (hchoose : choose (succAt level B) = some .gotoNextLevel) (turns : Nat)
    (update : Nat → Option Nat) :
    Standing nodes choose X e Z B level ∧ IsLastAt level (X ++ e :: Z) e.id ∧
      walk nodes choose (turns + 1) e.id (level + 1) update =
        walk nodes choose turns e.id level (Function.update update level (some e.id)) := by
  have hlow := succAt_eq_none_iff.mp hnone
  refine ⟨⟨h.holds, Nat.le_of_succ_le h.height, fun z hz => ⟨(h.low z hz).1, hlow z hz⟩, h.goes⟩,
    ⟨X, e, Z, rfl, rfl, h.height, hlow⟩, ?_⟩
  rw [walk, h.forward?, hnone, Option.none_or, Option.bind_some, hchoose]

/-- Where nothing finishes the loop, it ends at the last node before the place. -/
theorem Standing.walk_bottom (h : Standing nodes choose X e Z B levels)
    (hstop : ∀ level, choose (succAt level B) = some .gotoNextLevel)
    (hturns : Z.length + levels ≤ turns) :
    ∃ curNode update', walk nodes choose turns e.id levels update =
        some (.bottom curNode update') ∧
      (∃ before last, X ++ e :: Z = before ++ [last] ∧ last.id = curNode) ∧
      (∀ level < levels, ∃ p, update' level = some p ∧ IsLastAt level (X ++ e :: Z) p) ∧
      ∀ level, levels ≤ level → update' level = update level := by
  induction turns generalizing X e Z levels update with
  | zero =>
      obtain ⟨hZ, rfl⟩ : Z = [] ∧ levels = 0 := by
        rw [← List.length_eq_zero_iff]
        omega
      refine ⟨e.id, update, rfl, ⟨X, e, by rw [hZ], rfl⟩, fun _ hlt => ?_, fun _ _ => rfl⟩
      exact absurd hlt (Nat.not_lt_zero _)
  | succ turns ih =>
      cases levels with
      | zero =>
          have hZ : Z = [] := by
            refine List.eq_nil_iff_forall_not_mem.mpr fun z hz => ?_
            exact Nat.lt_irrefl 0 (Nat.lt_of_lt_of_le (h.low z hz).1 (h.low z hz).2)
          refine ⟨e.id, update, rfl, ⟨X, e, by rw [hZ], rfl⟩, fun _ hlt => ?_, fun _ _ => rfl⟩
          exact absurd hlt (Nat.not_lt_zero _)
      | succ level =>
          cases hnext : succAt level Z with
          | some p =>
              obtain ⟨before, z, behind, rfl, hstanding, hwalk⟩ :=
                h.next hnext turns update
              rw [hwalk]
              have hturns' : behind.length + (level + 1) ≤ turns := by
                rw [List.length_append, List.length_cons] at hturns
                omega
              obtain ⟨cur, update', hresult, hlast, hupdate, hrest⟩ := ih hstanding hturns'
              have hassoc : X ++ e :: (before ++ z :: behind) =
                  (X ++ e :: before) ++ z :: behind := by
                rw [List.append_assoc, List.cons_append]
              rw [hassoc]
              refine ⟨cur, update', hresult, hlast, hupdate, fun l hl => ?_⟩
              rw [hrest l hl, Function.update_of_ne (Nat.ne_of_gt hl)]
          | none =>
              obtain ⟨hstanding, hlastAt, hwalk⟩ :=
                h.down hnext (hstop level) turns update
              rw [hwalk]
              obtain ⟨cur, update', hresult, hlast, hupdate, hrest⟩ :=
                ih hstanding (by omega)
              refine ⟨cur, update', hresult, hlast, fun l hl => ?_, fun l hl => ?_⟩
              · rcases Nat.lt_succ_iff_lt_or_eq.mp hl with hlt | rfl
                · exact hupdate l hlt
                · refine ⟨e.id, ?_, hlastAt⟩
                  rw [hrest l (Nat.le_refl l), Function.update_self]
              · rw [hrest l (Nat.le_of_succ_le hl), Function.update_of_ne (Nat.ne_of_gt hl)]

/-- Where the first node behind the place finishes the loop, it ends there. -/
theorem Standing.walk_finish (h : Standing nodes choose X e Z (x :: B) levels)
    (hfinish : choose (some x.id) = some .finish)
    (hstop : ∀ level, choose (succAt level B) = some .gotoNextLevel)
    (hheight : 0 < x.height) (hlevels : 0 < levels) (hturns : Z.length + levels ≤ turns) :
    walk nodes choose turns e.id levels update = some (.finish x.id) := by
  induction turns generalizing X e Z levels update with
  | zero => omega
  | succ turns ih =>
      obtain ⟨level, rfl⟩ := Nat.exists_eq_succ_of_ne_zero (Nat.ne_of_gt hlevels)
      cases hnext : succAt level Z with
      | some p =>
          obtain ⟨before, z, behind, rfl, hstanding, hwalk⟩ :=
            h.next hnext turns update
          rw [hwalk]
          refine ih hstanding hlevels ?_
          rw [List.length_append, List.length_cons] at hturns
          omega
      | none =>
          by_cases hx : level < x.height
          · rw [walk, h.forward?, hnext, Option.none_or, succAt_cons, if_pos hx, Option.bind_some,
              hfinish]
          · have hchoose : choose (succAt level (x :: B)) = some .gotoNextLevel := by
              rw [succAt_cons, if_neg hx]
              exact hstop level
            obtain ⟨hstanding, -, hwalk⟩ :=
              h.down hnext hchoose turns update
            rw [hwalk]
            exact ih hstanding (by omega) (by omega)

/-- Where a value stands to what is looked for. -/
def Stands (cmp : α → Int) (side : Ordering) (e : Entry (Option α)) : Prop :=
  ∃ v, e.value = some v ∧ skiplistCmpNormalize (cmp v) = side

/-- What is looked for has a place in the order of the values. -/
def Places (C : Comparison α σ) (cmp : α → Int) : Prop :=
  ∀ v w, C.order v w = .lt → skiplistCmpNormalize (cmp w) ≠ .gt → skiplistCmpNormalize (cmp v) = .lt

instance (C : Comparison α σ) : Std.TransCmp C.order := C.trans

theorem places_value (C : Comparison α σ) (value : α) : Places C (C.cmpFn · value) := by
  intro v w hlt hle
  show C.order v value = .lt
  exact Std.TransCmp.lt_of_lt_of_isLE hlt (Ordering.ne_gt_iff_isLE.mp hle)

theorem places_search (C : Comparison α σ) (search : σ) : Places C (C.searchFn · search) :=
  fun v w hlt hle => C.consistent v w search hlt hle

/-- The nodes behind the header have values, which are in order. -/
structure Ordered (C : Comparison α σ) (entries : List (Entry (Option α))) : Prop where
  value : ∀ e ∈ entries, e.value.isSome
  less : entries.Pairwise fun a b =>
    ∀ v w, a.value = some v → b.value = some w → C.order v w = .lt

/-- The nodes before the place and behind it, and one that is found there or none. -/
structure Split (cmp : α → Int) (entries before : List (Entry (Option α)))
    (found : Option (Entry (Option α))) (behind : List (Entry (Option α))) : Prop where
  eq : entries = before ++ (found.toList ++ behind)
  before : ∀ e ∈ before, Stands cmp .lt e
  found : ∀ e ∈ found, Stands cmp .eq e
  behind : ∀ e ∈ behind, Stands cmp .gt e

theorem exists_split {C : Comparison α σ} {cmp : α → Int} (hcmp : Places C cmp)
    {entries : List (Entry (Option α))} (h : Ordered C entries) :
    ∃ before found behind, Split cmp entries before found behind := by
  induction entries with
  | nil =>
      exact ⟨[], none, [], rfl, by simp, by simp, by simp⟩
  | cons e rest ih =>
      obtain ⟨hless, hrest⟩ := List.pairwise_cons.mp h.less
      obtain ⟨v, hv⟩ := Option.isSome_iff_exists.mp (h.value e List.mem_cons_self)
      have hbehind : skiplistCmpNormalize (cmp v) ≠ .lt → ∀ z ∈ rest, Stands cmp .gt z := by
        intro hnot z hz
        obtain ⟨w, hw⟩ := Option.isSome_iff_exists.mp (h.value z (List.mem_cons_of_mem _ hz))
        refine ⟨w, hw, ?_⟩
        by_contra hgt
        exact hnot (hcmp v w (hless z hz v w hv hw) hgt)
      cases hside : skiplistCmpNormalize (cmp v) with
      | lt =>
          obtain ⟨before, found, behind, hsplit⟩ :=
            ih ⟨fun z hz => h.value z (List.mem_cons_of_mem _ hz), hrest⟩
          refine ⟨e :: before, found, behind, ?_, ?_, hsplit.found, hsplit.behind⟩
          · rw [hsplit.eq, List.cons_append]
          · rw [List.forall_mem_cons]
            exact ⟨⟨v, hv, hside⟩, hsplit.before⟩
      | eq =>
          refine ⟨[], some e, rest, rfl, by simp, ?_, hbehind (by rw [hside]; decide)⟩
          rintro z ⟨⟩
          exact ⟨v, hv, hside⟩
      | gt =>
          refine ⟨[], none, e :: rest, rfl, by simp, by simp, ?_⟩
          rw [List.forall_mem_cons]
          exact ⟨⟨v, hv, hside⟩, hbehind (by rw [hside]; decide)⟩

/-- What the four functions choose by the side of the node. -/
def chosen (finishes : Bool) : Ordering → Op
  | .lt => .gotoNextNode
  | .eq => if finishes then .finish else .gotoNextLevel
  | .gt => .gotoNextLevel

theorem op_of_stands {cmp : α → Int} {side : Ordering} (hnode : ∃ next,
    nodes.find? e.id = some (e.node next)) (hside : Stands cmp side e) (finishes : Bool) :
    op finishes cmp nodes (some e.id) = some (chosen finishes side) := by
  obtain ⟨next, hnode⟩ := hnode
  obtain ⟨v, hv, rfl⟩ := hside
  have hvalue : (e.node next).value = some v := hv
  rw [op, hnode, Option.bind_eq_bind, Option.bind_some, hvalue, Option.bind_eq_bind,
    Option.bind_some]
  cases skiplistCmpNormalize (cmp v) <;> rfl

/-- The nodes behind the place are not gone over. -/
theorem op_succAt {cmp : α → Int} {finishes : Bool}
    (hnodes : ∀ e ∈ B, ∃ next, nodes.find? e.id = some (e.node next))
    (hstop : ∀ e ∈ B, Stands cmp .gt e ∨ Stands cmp .eq e ∧ finishes = false) (level : Nat) :
    op finishes cmp nodes (succAt level B) = some .gotoNextLevel := by
  cases hsucc : succAt level B with
  | none => rfl
  | some p =>
      obtain ⟨before, e, behind, rfl, rfl, -⟩ := succAt_eq_some hsucc
      have he : e ∈ before ++ e :: behind := List.mem_append_right _ List.mem_cons_self
      rcases hstop e he with hgt | ⟨heq, rfl⟩
      · rw [op_of_stands (hnodes e he) hgt, chosen]
      · rw [op_of_stands (hnodes e he) heq]
        rfl

def headerEntry (list : SkipList α) : Entry (Option α) :=
  ⟨list.header, none, skiplistLevelMax + 1⟩

/-- The nodes of the list are the header and the entries, which are in order. -/
structure Sound (C : Comparison α σ) (list : SkipList α) (entries : List (Entry (Option α))) :
    Prop where
  holds : HoldsTo list.nodes (headerEntry list :: entries) fun _ => none
  nodup : ((headerEntry list :: entries).map Entry.id).Nodup
  ordered : Ordered C entries
  height : ∀ e ∈ entries, 0 < e.height ∧ e.height ≤ list.levels
  levels_le : list.levels ≤ skiplistLevelMax + 1
  length : list.length = entries.length

variable {C : Comparison α σ} {list : SkipList α} {cmp : α → Int}
  {entries before behind : List (Entry (Option α))} {found : Option (Entry (Option α))}

theorem Sound.find? (h : Sound C list entries) (he : e ∈ entries) :
    ∃ next, list.nodes.find? e.id = some (e.node next) :=
  h.holds.find? (List.mem_cons_of_mem _ he)

theorem Sound.standing (h : Sound C list entries) (hsplit : Split cmp entries before found behind)
    (finishes : Bool) : Standing list.nodes (op finishes cmp list.nodes) [] (headerEntry list)
      before (found.toList ++ behind) list.levels where
  holds := by
    have hholds := h.holds
    rw [hsplit.eq] at hholds
    exact hholds
  height := h.levels_le
  low z hz := h.height z (by
    rw [hsplit.eq]
    exact List.mem_append_left _ hz)
  goes z hz := by
    have hmem : z ∈ entries := by
      rw [hsplit.eq]
      exact List.mem_append_left _ hz
    rw [op_of_stands (h.find? hmem) (hsplit.before z hz), chosen]

theorem Sound.turns_le (h : Sound C list entries) (hsplit : Split cmp entries before found behind) :
    before.length + list.levels ≤ list.length + list.levels := by
  rw [h.length, hsplit.eq, List.length_append]
  omega

theorem Sound.mem_of_split (hsplit : Split cmp entries before found behind)
    (he : e ∈ found.toList ++ behind) : e ∈ entries := by
  rw [hsplit.eq]
  exact List.mem_append_right _ he

/-- A loop that finishes at a value that is found. -/
theorem Sound.walk_finish (h : Sound C list entries)
    (hsplit : Split cmp entries before (some x) behind) :
    list.walk (op true cmp list.nodes) = some (.finish x.id) := by
  have hx : x ∈ entries := Sound.mem_of_split hsplit List.mem_cons_self
  have hpos := h.height x hx
  refine (h.standing hsplit true).walk_finish ?_ ?_ hpos.1 (by omega) (h.turns_le hsplit)
  · rw [op_of_stands (h.find? hx) (hsplit.found x rfl)]
    rfl
  · refine op_succAt (fun e he => ?_) fun e he => .inl (hsplit.behind e he)
    exact h.find? (Sound.mem_of_split hsplit (List.mem_cons_of_mem _ he))

/-- What a loop leaves that does not finish. -/
def Bottoms (list : SkipList α) (before : List (Entry (Option α))) (walked : Option Walked) :
    Prop :=
  ∃ curNode update, walked = some (.bottom curNode update) ∧
    (∃ init last, headerEntry list :: before = init ++ [last] ∧ last.id = curNode) ∧
    ∀ level < list.levels, ∃ p, update level = some p ∧
      IsLastAt level (headerEntry list :: before) p

theorem Sound.walk_bottom (h : Sound C list entries)
    (hsplit : Split cmp entries before found behind) (finishes : Bool)
    (hnone : found = none ∨ finishes = false) :
    Bottoms list before (list.walk (op finishes cmp list.nodes)) := by
  have hstop : ∀ level, op finishes cmp list.nodes (succAt level (found.toList ++ behind)) =
      some .gotoNextLevel := by
    refine op_succAt (fun e he => h.find? (Sound.mem_of_split hsplit he)) fun e he => ?_
    rcases List.mem_append.mp he with he | he
    · rcases hnone with rfl | hfinishes
      · exact absurd he List.not_mem_nil
      · exact .inr ⟨hsplit.found e (Option.mem_toList.mp he), hfinishes⟩
    · exact .inl (hsplit.behind e he)
  obtain ⟨cur, update, hwalk, hlast, hupdate, -⟩ :=
    (h.standing hsplit finishes).walk_bottom hstop (h.turns_le hsplit)
  exact ⟨cur, update, hwalk, hlast, hupdate⟩

end FastDCS.SkipLists
