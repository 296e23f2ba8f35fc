import FastDCS.RbTreeSteps

/-!
`util_rbtree_insert`: the new node at its place, and the fix-up on the way from there to
the root.
-/

namespace FastDCS.RbTrees

open FastDCS.Handlers
open FastDCS.Heaps
open FastDCS.SearchTrees
open FastDCS.SearchTrees.SearchTree
open FastDCS.LinkedTrees
open FastDCS.RedBlackTrees

variable {α : Type} {s t u : UtilRbtree α} {E : Fault → Prop} {p q null : Nat}
  {node : LinkedNode (RbItem α)} {tree tree' near far a b c : Tree α}
  {above : List (Frame (Placed (RbItem α)))} {rootParent : Option Nat}
  {e x y g : Placed (RbItem α)} {side : Side} {color c₁ c₂ : Color} {n : Nat}

/-- What a fix-up does not change of a node. -/
structure Plain (α : Type) where
  ptr : Nat
  key : Int
  data : α
deriving DecidableEq

def plain (e : Placed (RbItem α)) : Plain α := ⟨e.ptr, e.item.key, e.item.data⟩

/-- The nodes of a tree in order. -/
def plains (tree : Tree α) : List (Plain α) := tree.toList.map plain

section Plains

@[simp] theorem plain_recolor (color : Color) (e : Placed (RbItem α)) :
    plain (recolor color e) = plain e := rfl

@[simp] theorem plains_leaf : plains (.leaf : Tree α) = [] := rfl

@[simp] theorem plains_node (left right : Tree α) (e : Placed (RbItem α)) :
    plains (.node left e right) = plains left ++ plain e :: plains right := by
  simp [plains]

theorem plains_rotate (side : Side) (a b c : Tree α) (x y : Placed (RbItem α)) :
    plains (.branch side a x (.branch side b y c)) =
      plains (.branch side (.branch side a x b) y c) := by
  rw [plains, plains, toList_rotate]

theorem plains_branch_congr {near' far' : Tree α} {e' : Placed (RbItem α)} (side : Side)
    (hnear : plains near = plains near') (he : plain e = plain e')
    (hfar : plains far = plains far') :
    plains (.branch side near e far) = plains (.branch side near' e' far') := by
  cases side with
  | left => rw [branch, branch, plains_node, plains_node, hnear, he, hfar]
  | right => rw [branch, branch, plains_node, plains_node, hnear, he, hfar]

theorem plains_plug_congr (above : List (Frame (Placed (RbItem α))))
    (h : plains tree = plains tree') : plains (plug above tree) = plains (plug above tree') := by
  rw [plains, plains, toList_plug, toList_plug, List.map_append, List.map_append,
    List.map_append, List.map_append]
  rw [plains, plains] at h
  rw [h]

theorem ptrs_eq (tree : Tree α) : ptrs tree = (plains tree).map Plain.ptr := by
  rw [ptrs, plains, List.map_map]
  rfl

end Plains

/-- The sentinel is black. -/
def SentinelBlack (null : Nat) (s : UtilRbtree α) : Prop :=
  ∃ sentinel, s.nodes.find? null = some sentinel ∧ sentinel.item.color = .black

theorem SentinelBlack.keeps (h : SentinelBlack null s) (hn : s.null = null)
    (hkeeps : Keeps s t) : SentinelBlack null t := by
  obtain ⟨sentinel, hfind, hcolor⟩ := h
  refine ⟨sentinel, ?_, hcolor⟩
  have hsame := hkeeps.sentinel
  rw [hn] at hsame
  exact hsame.trans hfind

/-- Where a subtree may be missing, its colour is read all the same. -/
theorem ensures_colorOf_top {Q : Color → UtilRbtree α → Prop} (hs : SentinelBlack null s)
    (hheld : Held s.nodes null rootParent tree) (hbalanced : Balanced itemColor tree color n)
    (hQ : Q color s) : Ensures (colorOf (top null tree)) s Q E := by
  cases tree with
  | leaf =>
      obtain ⟨sentinel, hfind, hblack⟩ := hs
      cases hbalanced
      refine ensures_colorOf hfind ?_
      rw [hblack]
      exact hQ
  | node left e right =>
      refine ensures_colorOf hheld.1 ?_
      have hcolor : itemColor e = color := hbalanced.topColor_eq
      rw [← hcolor] at hQ
      exact hQ

/-- What a fix-up makes of a tree. -/
def Fixed (null : Nat) (s : UtilRbtree α) (tree : Tree α) (rootParent : Option Nat)
    (t : UtilRbtree α) : Prop :=
  ∃ tree', Stands null t tree' rootParent ∧ (∃ n, Balanced itemColor tree' .black n) ∧
    plains tree' = plains tree ∧ Keeps s t

theorem Fixed.of_step (h : Fixed null t tree rootParent u) (hplains : plains tree = plains tree')
    (hkeeps : Keeps s t) : Fixed null s tree' rootParent u := by
  obtain ⟨fixed, hstands, hbalanced, hsame, hrest⟩ := h
  exact ⟨fixed, hstands, hbalanced, hsame.trans hplains, hkeeps.trans hrest⟩

/-- Both fix-ups end with a black root. -/
theorem ensures_blackenRoot (h : Stands null s tree rootParent) (hne : tree ≠ .leaf)
    (hbalanced : Balanced itemColor tree color n) :
    Ensures (setColor s.root .black) s (fun _ t => Fixed null s tree rootParent t) E := by
  cases tree with
  | leaf => exact absurd rfl hne
  | node left e right =>
      have hplace : Stands null s (plug [] (.branch .left left e right)) rootParent := h
      rw [h.root_eq]
      refine (ensures_setColor hplace .black).imp ?_
      rintro _ t ⟨hstands, hkeeps⟩
      refine ⟨_, hstands, ?_, plains_branch_congr .left rfl (plain_recolor _ _) rfl, hkeeps⟩
      cases hbalanced with
      | red _ hleft hright => exact ⟨_, .black (itemColor_recolor _ _) hleft hright⟩
      | black _ hleft hright => exact ⟨_, .black (itemColor_recolor _ _) hleft hright⟩

/-- The parent of the node is black, which ends the fix-up. -/
def ParentBlack (s : UtilRbtree α) (p : Nat) : Prop :=
  ∃ node q above, s.nodes.find? p = some node ∧ node.parent = some q ∧
    s.nodes.find? q = some above ∧ above.item.color = .black

section Turns

variable {nearer : Side} {F sibling uncle : Tree α}

/-- Case 1: the colours of two levels change places, and the grandparent is the next node. -/
theorem ensures_pushBlack
    (h : Stands null s (plug above (.branch side (.branch nearer F x sibling) g
      (.branch side a y c))) rootParent) :
    Ensures (pushBlack y.ptr x.ptr) s
      (fun r t => Stands null t (plug above (.branch side
          (.branch nearer F (recolor .black x) sibling) (recolor .red g)
          (.branch side a (recolor .black y) c))) rootParent ∧ Keeps s t ∧ r = g.ptr) E := by
  simp only [pushBlack, ensures_bind]
  rw [plug_far side] at h
  refine (ensures_setColor h .black).imp ?_
  rintro _ t₁ ⟨h₁, hkeeps₁⟩
  rw [← plug_far side, plug_near side] at h₁
  refine (ensures_setColor h₁ .black).imp ?_
  rintro _ t₂ ⟨h₂, hkeeps₂⟩
  refine ensures_parent h₂.find?_place LinkedNode.parent_sided ?_
  rw [Frame.item_toward]
  rw [← plug_near side] at h₂
  refine (ensures_setColor h₂ .red).imp ?_
  rintro _ t₃ ⟨h₃, hkeeps₃⟩
  have h₃' := h₃
  rw [plug_near side] at h₃'
  refine ensures_parent h₃'.find?_place LinkedNode.parent_sided ?_
  rw [Frame.item_toward]
  exact ⟨h₃, (hkeeps₁.trans hkeeps₂).trans hkeeps₃, rfl⟩

/-- Case 3: the parent comes up above the grandparent and takes its colour. -/
theorem ensures_liftParent
    (h : Stands null s (plug above (.branch side (.branch side a x b) g uncle)) rootParent) :
    Ensures (liftParent side x.ptr) s
      (fun _ t => Stands null t (plug above (.branch side a (recolor .black x)
          (.branch side b (recolor .red g) uncle))) rootParent ∧ Keeps s t) E := by
  simp only [liftParent, ensures_bind]
  rw [plug_near side] at h
  refine (ensures_setColor h .black).imp ?_
  rintro _ t₁ ⟨h₁, hkeeps₁⟩
  refine ensures_parent h₁.find?_place LinkedNode.parent_sided ?_
  rw [Frame.item_toward]
  rw [← plug_near side] at h₁
  refine (ensures_setColor h₁ .red).imp ?_
  rintro _ t₂ ⟨h₂, hkeeps₂⟩
  have h₂' := h₂
  rw [plug_near side] at h₂'
  refine ensures_parent h₂'.find?_place LinkedNode.parent_sided ?_
  rw [Frame.item_toward]
  rw [← branch_other, ← branch_other side b] at h₂
  refine (ensures_rotate h₂).imp ?_
  rintro _ t₃ ⟨h₃, hkeeps₃⟩
  rw [branch_other, branch_other] at h₃
  exact ⟨h₃, (hkeeps₁.trans hkeeps₂).trans hkeeps₃⟩

/-- The parent that has come up is black. -/
theorem parentBlack_liftParent
    (h : Stands null s (plug above (.branch side a (recolor .black x)
      (.branch side b (recolor .red g) uncle))) rootParent) (ha : a ≠ .leaf) :
    ParentBlack s (top null a) := by
  cases a with
  | leaf => exact absurd rfl ha
  | node left e right =>
      have hx := h.find?_place
      have hheld := (held_branch.mp (held_plug.mp h.held).2).2.1
      exact ⟨_, _, _, hheld.1, rfl, hx, by rw [LinkedNode.item_sided]; rfl⟩

/-- Case 2 makes case 3: the red node and its red parent hang on one side. -/
theorem ensures_straighten
    (h : Stands null s (plug above (.branch side (.branch nearer F x sibling) g uncle)) rootParent)
    (hF : Balanced itemColor F .red n) (hx : itemColor x = .red)
    (hsibling : Balanced itemColor sibling .black n) :
    Ensures (straighten side (top null F) x.ptr) s
      (fun r t => ∃ a y b, Stands null t (plug above (.branch side (.branch side a y b) g uncle))
          rootParent ∧ Keeps s t ∧ r = (top null a, y.ptr) ∧ itemColor y = .red ∧
        Balanced itemColor a .red n ∧ Balanced itemColor b .black n ∧
        plains (.branch side a y b) = plains (.branch nearer F x sibling)) E := by
  rw [plug_near side] at h
  have hxfind := h.find?_place
  rw [straighten, ensures_bind]
  by_cases hside : nearer = side
  · subst hside
    refine ensures_child hxfind LinkedNode.child_other_sided ?_
    have hne : top null F ≠ top null sibling := h.top_ne_top (by rintro rfl; cases hF)
    rw [if_neg hne]
    rw [← plug_near nearer] at h
    exact ⟨F, x, sibling, h, Keeps.refl s, rfl, hx, hF, hsibling, rfl⟩
  · obtain rfl : nearer = side.other := by
      cases nearer <;> cases side <;> first | rfl | exact absurd rfl hside
    refine ensures_child hxfind LinkedNode.child_sided ?_
    rw [if_pos rfl]
    cases hF with
    | @red left e right m he hleft hright =>
        obtain ⟨near, far, heq⟩ := exists_branch side left right e
        have hbalanced : Balanced itemColor (.branch side near e far) .red n :=
          heq ▸ .red he hleft hright
        obtain ⟨_, hnear, hfar⟩ := hbalanced.of_branch_red
        rw [heq, branch_other] at h
        rw [ensures_bind]
        refine (ensures_rotate h).imp ?_
        rintro _ t ⟨ht, hkeeps⟩
        have hxfind' := ht
        rw [plug_near side] at hxfind'
        rw [ensures_bind]
        refine ensures_parent hxfind'.find?_place LinkedNode.parent_sided ?_
        rw [Frame.item_toward]
        rw [← plug_near side] at ht
        refine ⟨_, _, _, ht, hkeeps, ?_, he, .branch_red hx hsibling hnear, hfar, ?_⟩
        · rw [top_branch]
        · rw [heq, branch_other, plains_rotate]

/-- A turn moves the red node up two levels, or it is the last one. -/
theorem ensures_insertFixupOn
    (h : Stands null s (plug above (.branch side (.branch nearer F x sibling) g uncle)) rootParent)
    (hs : SentinelBlack null s) (hF : Balanced itemColor F .red n) (hx : itemColor x = .red)
    (hsibling : Balanced itemColor sibling .black n)
    (huncle : Balanced itemColor uncle color n) :
    Ensures (insertFixupOn side (top null F) x.ptr) s
      (fun r t => ∃ F', Stands null t (plug above F') rootParent ∧
        plains F' = plains (.branch side (.branch nearer F x sibling) g uncle) ∧ Keeps s t ∧
        (Balanced itemColor F' .red (n + 1) ∧ r = top null F' ∨
          Balanced itemColor F' .black (n + 1) ∧ ParentBlack t r)) E := by
  have hg := h.find?_place
  have hheld := held_branch.mp (held_plug.mp h.held).2
  have hxfind := (held_branch.mp hheld.2.1).1
  rw [top_branch] at hg
  rw [insertFixupOn, ensures_bind]
  refine ensures_parent hxfind LinkedNode.parent_sided ?_
  rw [ensures_bind]
  refine ensures_child hg LinkedNode.child_other_sided ?_
  rw [ensures_bind]
  refine ensures_colorOf_top hs hheld.2.2 huncle ?_
  rw [ensures_ite]
  refine ⟨fun hred => ?_, fun hblack => ?_⟩
  · subst hred
    cases huncle with
    | @red left y right m hy hleft hright =>
        obtain ⟨near, far, hside⟩ := exists_branch side left right y
        rw [hside] at h
        have hbalanced : Balanced itemColor (.branch side near y far) .red n :=
          hside ▸ .red hy hleft hright
        obtain ⟨_, hnear, hfar⟩ := hbalanced.of_branch_red
        refine (ensures_pushBlack h).imp ?_
        rintro r t ⟨ht, hkeeps, rfl⟩
        refine ⟨_, ht, ?_, hkeeps, Or.inl ⟨?_, ?_⟩⟩
        · rw [hside]
          exact plains_branch_congr side
            (plains_branch_congr nearer rfl (plain_recolor _ _) rfl) (plain_recolor _ _)
            (plains_branch_congr side rfl (plain_recolor _ _) rfl)
        · exact .branch_red (itemColor_recolor _ _)
            (.branch_black (itemColor_recolor _ _) hF hsibling)
            (.branch_black (itemColor_recolor _ _) hnear hfar)
        · rw [top_branch]
          rfl
  · have hcolor : color = .black := by
      cases color with
      | black => rfl
      | red => exact absurd rfl hblack
    subst hcolor
    rw [ensures_bind]
    refine (ensures_straighten h hF hx hsibling).imp ?_
    rintro _ t₁ ⟨a, y, b, h₁, hkeeps₁, rfl, hy, ha, hb, hplains⟩
    rw [ensures_bind]
    refine (ensures_liftParent h₁).imp ?_
    rintro _ t ⟨ht, hkeeps⟩
    refine ⟨_, ht, ?_, hkeeps₁.trans hkeeps, Or.inr ⟨?_, ?_⟩⟩
    · rw [← plains_branch_congr side hplains rfl rfl, ← plains_rotate]
      exact plains_branch_congr side rfl (plain_recolor _ _)
        (plains_branch_congr side rfl (plain_recolor _ _) rfl)
    · exact .branch_black (itemColor_recolor _ _) ha
        (.branch_red (itemColor_recolor _ _) hb huncle)
    · refine parentBlack_liftParent ht ?_
      rintro rfl
      cases ha

end Turns

/-- Below a black node the loop ends. -/
theorem ensures_fixupDone (h : Stands null s tree rootParent) (hne : tree ≠ .leaf)
    (hbalanced : Balanced itemColor tree color n) (hparent : ParentBlack s p) (turns : Nat) :
    Ensures (rbtreeInsertFixup (turns + 1) p) s (fun _ t => Fixed null s tree rootParent t) E := by
  obtain ⟨node, q, above, hnode, hq, habove, hblack⟩ := hparent
  rw [rbtreeInsertFixup, ensures_bind]
  refine ensures_parent hnode hq ?_
  rw [ensures_bind]
  refine ensures_colorOf habove ?_
  rw [hblack, if_neg nofun, ensures_bind, ensures_getRoot]
  exact ensures_blackenRoot h hne hbalanced

theorem ensures_rbtreeInsertFixup {turns : Nat} {F : Tree α}
    (h : Stands null s (plug above F) (some null)) (hs : SentinelBlack null s)
    (hF : Balanced itemColor F .red n) (habove : Around itemColor above color n)
    (hturns : above.length < turns) :
    Ensures (rbtreeInsertFixup turns (top null F)) s
      (fun _ t => Fixed null s (plug above F) (some null) t) E := by
  induction turns generalizing above F s n color with
  | zero => exact absurd hturns (Nat.not_lt_zero _)
  | succ turns ih =>
      have hne : F ≠ .leaf := by
        rintro rfl
        cases hF
      obtain ⟨left, e, right, rfl⟩ : ∃ left e right, F = .node left e right := by
        cases F with
        | leaf => exact absurd rfl hne
        | node left e right => exact ⟨left, e, right, rfl⟩
      have he := (held_plug.mp h.held).2.1
      cases color with
      | black =>
          cases above with
          | nil =>
              obtain ⟨sentinel, hfind, hblack⟩ := hs
              exact ensures_fixupDone h hne hF ⟨_, _, _, he, rfl, hfind, hblack⟩ turns
          | cons frame above =>
              obtain ⟨m, hbalanced⟩ := habove.plug hF (fits_of_cons _ _)
              have hframe := (held_plug.mp h.held).1.1
              obtain ⟨side, g, uncle, _, _, rfl, hg, _⟩ := habove.of_black_cons
              refine ensures_fixupDone h (plug_ne_leaf hne _) hbalanced
                ⟨_, _, _, he, rfl, hframe, ?_⟩ turns
              rw [LinkedNode.item_sided, Frame.item_toward]
              exact hg
      | red =>
          obtain ⟨nearer, x, sibling, rest, rfl, hx, hsibling, hrest, hgrand⟩ := habove.of_red
          obtain ⟨frame, above, rfl⟩ := List.exists_cons_of_ne_nil hrest
          obtain ⟨side, g, uncle, _, _, rfl, _, huncle, habove⟩ := hgrand.of_black_cons
          rw [← plug_near nearer, ← plug_near side] at h ⊢
          obtain ⟨hg, hparent, huncleHeld⟩ := held_branch.mp (held_plug.mp h.held).2
          have hxfind := (held_branch.mp hparent).1
          rw [top_branch] at hg
          have hturn : Ensures (do
              rbtreeInsertFixup turns (← insertFixupOn side e.ptr x.ptr)) s
              (fun _ t => Fixed null s (plug above (.branch side
                (.branch nearer (.node left e right) x sibling) g uncle)) (some null) t) E := by
            rw [ensures_bind]
            refine (ensures_insertFixupOn h hs hF hx hsibling huncle).imp ?_
            rintro r t ⟨F', ht, hplains, hkeeps, ⟨hred, rfl⟩ | ⟨hblack, hdone⟩⟩
            · have hshort : above.length < turns := by
                rw [List.length_cons, List.length_cons] at hturns
                omega
              refine (ih ht (hs.keeps h.null_eq hkeeps) hred habove hshort).imp ?_
              exact fun _ u hfixed => hfixed.of_step (plains_plug_congr above hplains) hkeeps
            · obtain ⟨turns', rfl⟩ : ∃ turns', turns = turns' + 1 :=
                Nat.exists_eq_succ_of_ne_zero (by rw [List.length_cons] at hturns; omega)
              obtain ⟨m, hbalanced⟩ := habove.plug hblack (fits_black _ _)
              have hne : F' ≠ .leaf := by
                rintro rfl
                cases hblack
              refine (ensures_fixupDone ht (plug_ne_leaf hne _) hbalanced hdone turns').imp ?_
              exact fun _ u hfixed => hfixed.of_step (plains_plug_congr above hplains) hkeeps
          have hup : parentOf (some null)
              (.toward nearer x sibling :: .toward side g uncle :: above) = some x.ptr := by
            rw [parentOf, Frame.item_toward]
          rw [rbtreeInsertFixup, ensures_bind]
          refine ensures_parent he hup ?_
          rw [ensures_bind]
          refine ensures_colorOf hxfind ?_
          have hxred : x.item.color = .red := hx
          rw [LinkedNode.item_sided, if_pos hxred, ensures_bind]
          refine ensures_parent he hup ?_
          rw [ensures_bind]
          refine ensures_parent hxfind LinkedNode.parent_sided ?_
          rw [ensures_bind]
          cases side with
          | left =>
              refine ensures_child hg rfl ?_
              rw [if_pos rfl]
              exact hturn
          | right =>
              refine ensures_child hg rfl ?_
              have hxne := h.top_ne_top (branch_ne_leaf nearer _ _ x)
              rw [top_branch] at hxne
              rw [if_neg hxne]
              exact hturn

section Positions

/-- From left to right, the keys do not decrease. -/
def Sorted (items : List (Plain α)) : Prop := items.Pairwise fun a b => a.key ≤ b.key

/-- The way that the search for an insert position takes, below what is above already. -/
def insertPath (key : Int) : Tree α → List (Frame (Placed (RbItem α))) →
    List (Frame (Placed (RbItem α)))
  | .leaf, above => above
  | .node left e right, above =>
      if key < itemKey e then insertPath key left (.wentLeft e right :: above)
      else insertPath key right (.wentRight left e :: above)

theorem plug_insertPath (key : Int) (tree : Tree α) (above : List (Frame (Placed (RbItem α)))) :
    plug (insertPath key tree above) .leaf = plug above tree := by
  induction tree generalizing above with
  | leaf => rfl
  | node left e right ihLeft ihRight =>
      rw [insertPath]
      split_ifs
      · exact ihLeft _
      · exact ihRight _

theorem insertPath_ne_nil {key : Int} (h : tree ≠ .leaf ∨ above ≠ []) :
    insertPath key tree above ≠ [] := by
  induction tree generalizing above with
  | leaf => exact h.resolve_left fun hne => hne rfl
  | node left e right ihLeft ihRight =>
      rw [insertPath]
      split_ifs
      · exact ihLeft (Or.inr (List.cons_ne_nil _ _))
      · exact ihRight (Or.inr (List.cons_ne_nil _ _))

/-- The place is on the side of the last node that the key tells. -/
def AtSide (key : Int) : List (Frame (Placed (RbItem α))) → Prop
  | [] => True
  | frame :: _ => if key < itemKey frame.item then frame.side = .left else frame.side = .right

theorem AtSide.setChild_eq {key : Int} {frame : Frame (Placed (RbItem α))}
    (h : AtSide key (frame :: above)) (p q : Nat) :
    (if key < frame.item.item.key then setChild .left p q else setChild .right p q :
      Program α PUnit) = setChild frame.side p q := by
  rw [AtSide] at h
  by_cases hlt : key < itemKey frame.item
  · rw [if_pos hlt] at h
    rw [if_pos (show key < frame.item.item.key from hlt), h]
  · rw [if_neg hlt] at h
    rw [if_neg (show ¬key < frame.item.item.key from hlt), h]

theorem atSide_insertPath {key : Int} {tree : Tree α} {above : List (Frame (Placed (RbItem α)))}
    (h : AtSide key above) : AtSide key (insertPath key tree above) := by
  induction tree generalizing above with
  | leaf => exact h
  | node left e right ihLeft ihRight =>
      rw [insertPath]
      split_ifs with hlt
      · refine ihLeft ?_
        rw [AtSide, if_pos (show key < itemKey (Frame.wentLeft e right).item from hlt)]
        rfl
      · refine ihRight ?_
        rw [AtSide, if_neg (show ¬key < itemKey (Frame.wentRight left e).item from hlt)]
        rfl

theorem sorted_node {left right : Tree α} :
    Sorted (plains (.node left e right)) ↔
      (Sorted (plains left) ∧ ∀ a ∈ left.toList, itemKey a ≤ itemKey e) ∧
        Sorted (plains right) ∧ (∀ a ∈ right.toList, itemKey e ≤ itemKey a) ∧
          ∀ a ∈ left.toList, ∀ b ∈ right.toList, itemKey a ≤ itemKey b := by
  rw [Sorted, Sorted, Sorted, plains, plains, plains, List.pairwise_map, List.pairwise_map,
    List.pairwise_map, toList_node, List.pairwise_append, List.pairwise_cons]
  simp only [List.mem_cons, forall_eq_or_imp]
  constructor
  · rintro ⟨hleft, ⟨hitem, hright⟩, hcross⟩
    exact ⟨⟨hleft, fun a ha => (hcross a ha).1⟩, hright, hitem, fun a ha => (hcross a ha).2⟩
  · rintro ⟨⟨hleft, hbelow⟩, hright, hitem, hcross⟩
    exact ⟨hleft, ⟨hitem, hright⟩, fun a ha => ⟨hbelow a ha, hcross a ha⟩⟩

/-- What comes before the position is not greater, and what comes behind it is. -/
theorem insertPath_bounds {key : Int} (hsorted : Sorted (plains tree))
    (hbefore : ∀ a ∈ before above, itemKey a ≤ key)
    (hafter : ∀ a ∈ after above, key < itemKey a) :
    (∀ a ∈ before (insertPath key tree above), itemKey a ≤ key) ∧
      ∀ a ∈ after (insertPath key tree above), key < itemKey a := by
  induction tree generalizing above with
  | leaf => exact ⟨hbefore, hafter⟩
  | node left e right ihLeft ihRight =>
      obtain ⟨⟨hleft, hbelow⟩, hright, habove, _⟩ := sorted_node.mp hsorted
      rw [insertPath]
      split_ifs with hlt
      · refine ihLeft hleft hbefore fun a ha => ?_
        rcases List.mem_cons.mp ha with rfl | ha
        · exact hlt
        · rcases List.mem_append.mp ha with ha | ha
          · exact hlt.trans_le (habove a ha)
          · exact hafter a ha
      · refine ihRight hright (fun a ha => ?_) hafter
        rcases List.mem_append.mp ha with ha | ha
        · exact hbefore a ha
        · rcases List.mem_append.mp ha with ha | ha
          · exact (hbelow a ha).trans (not_lt.mp hlt)
          · rw [List.mem_singleton.mp ha]
            exact not_lt.mp hlt

theorem plains_position (new : Placed (RbItem α)) (above : List (Frame (Placed (RbItem α)))) :
    plains (plug above (.node .leaf new .leaf)) =
      (before above).map plain ++ plain new :: (after above).map plain := by
  rw [plains, toList_plug]
  simp

theorem plains_plug_leaf (above : List (Frame (Placed (RbItem α)))) :
    plains (plug above .leaf) = (before above).map plain ++ (after above).map plain := by
  rw [plains, toList_plug]
  simp

/-- A new node at its position keeps the order of the keys. -/
theorem sorted_insertPath (hsorted : Sorted (plains tree)) (new : Placed (RbItem α)) :
    Sorted (plains (plug (insertPath (itemKey new) tree []) (.node .leaf new .leaf))) := by
  have hbounds : (∀ a ∈ before (insertPath (itemKey new) tree []), itemKey a ≤ itemKey new) ∧
      ∀ a ∈ after (insertPath (itemKey new) tree []), itemKey new < itemKey a :=
    insertPath_bounds hsorted nofun nofun
  obtain ⟨hbefore, hafter⟩ := hbounds
  have hold := plains_plug_leaf (insertPath (itemKey new) tree [])
  rw [plug_insertPath, plug] at hold
  rw [hold, Sorted, List.pairwise_append] at hsorted
  rw [plains_position, Sorted, List.pairwise_append, List.pairwise_cons]
  refine ⟨hsorted.1, ⟨fun b hb => ?_, hsorted.2.1⟩, fun a ha b hb => ?_⟩
  · obtain ⟨e, he, rfl⟩ := List.mem_map.mp hb
    exact (hafter e he).le
  · rcases List.mem_cons.mp hb with rfl | hb
    · obtain ⟨e, he, rfl⟩ := List.mem_map.mp ha
      exact hbefore e he
    · exact hsorted.2.2 a ha b hb

theorem perm_insertPath (tree : Tree α) (new : Placed (RbItem α)) :
    (plains (plug (insertPath (itemKey new) tree []) (.node .leaf new .leaf))).Perm
      (plain new :: plains tree) := by
  have hold := plains_plug_leaf (insertPath (itemKey new) tree [])
  rw [plug_insertPath, plug] at hold
  rw [plains_position, hold]
  exact List.perm_middle

/-- The loop takes this way, with `y` the last node on it. -/
theorem ensures_insertPosition {key : Int} {turns y : Nat} {Q : Nat → UtilRbtree α → Prop}
    (h : Stands null s (plug above tree) (some null)) (hturns : tree.levels < turns)
    (hy : parentOf (some null) above = some y)
    (hQ : ∀ y', parentOf (some null) (insertPath key tree above) = some y' → Q y' s) :
    Ensures (insertPosition key turns (top null tree) y) s Q E := by
  induction turns generalizing tree above y with
  | zero => exact absurd hturns (Nat.not_lt_zero _)
  | succ turns ih =>
      rw [insertPosition, ensures_bind, ensures_getNull, h.null_eq, ensures_ite]
      cases tree with
      | leaf => exact ⟨fun _ => hQ y hy, fun hne => absurd rfl hne⟩
      | node left e right =>
          have hplace : Stands null s (plug above (.branch .left left e right)) (some null) := h
          have hfind := hplace.find?_place
          rw [levels_node] at hturns
          refine ⟨fun heq => absurd (heq.trans h.null_eq.symm) hplace.ptr_ne_null, fun _ => ?_⟩
          rw [ensures_bind]
          refine ensures_keyOf hfind ?_
          rw [ensures_ite]
          refine ⟨fun hlt => ?_, fun hge => ?_⟩
          · rw [ensures_bind]
            have hnext : Stands null s (plug (.wentLeft e right :: above) left) (some null) := h
            refine ensures_child hfind rfl (ih hnext (by omega) rfl fun y' hy' => hQ y' ?_)
            rw [insertPath, if_pos (show key < itemKey e from hlt)]
            exact hy'
          · rw [ensures_bind]
            have hnext : Stands null s (plug (.wentRight left e :: above) right) (some null) := h
            refine ensures_child hfind rfl (ih hnext (by omega) rfl fun y' hy' => hQ y' ?_)
            rw [insertPath, if_neg (show ¬key < itemKey e from hge)]
            exact hy'

end Positions

section Inserting

/-- The new node is below the nodes of its way, and nothing is below it yet. -/
theorem ensures_hang (h : Stands null s tree (some null)) (hp : s.nodes.find? p = some node)
    (hnew : p ∉ ptrs tree) (hne : p ≠ null) :
    Ensures (hang p) s (fun _ t =>
      HeldAbove t.nodes null (some null) (insertPath node.item.key tree []) p ∧
        t.root = topAbove (insertPath node.item.key tree []) p ∧
        t.nodes.find? p = some
          (node.withParent (parentOf (some null) (insertPath node.item.key tree []))) ∧
        Keeps s t) E := by
  have hpnull : p ≠ s.null := h.null_eq.symm ▸ hne
  rw [hang, ensures_bind, ensures_getRoot, ensures_bind, ensures_getNull, ensures_ite,
    h.null_eq, h.root_eq, top_eq_null_iff (List.nodup_cons.mp h.nodup).1]
  refine ⟨?_, fun hfull => ?_⟩
  · rintro rfl
    rw [ensures_bind, ensures_setRoot, ensures_bind, ensures_getNull]
    refine ensures_write hp hpnull rfl fun t hkeeps hroot hfind => ⟨trivial, hroot, ?_, ?_⟩
    · rw [hfind, if_pos rfl, h.null_eq]
      rfl
    · exact (Keeps.setRoot s p).trans hkeeps
  · rw [ensures_bind]
    refine ensures_keyOf hp ?_
    simp only [ensures_bind, ensures_maxTurns, ensures_getRoot, ensures_getNull]
    rw [h.root_eq]
    have hlevels := h.held.levels_le (List.nodup_cons.mp h.nodup).2
    have htop : Stands null s (plug [] tree) (some null) := h
    refine ensures_insertPosition htop (Nat.lt_succ_of_le hlevels)
      (congrArg some h.null_eq.symm) fun y hy => ?_
    have hplug := plug_insertPath node.item.key tree []
    have hside : AtSide node.item.key (insertPath node.item.key tree []) :=
      atSide_insertPath trivial
    have hne : insertPath node.item.key tree [] ≠ [] := insertPath_ne_nil (Or.inl hfull)
    obtain ⟨frame, rest, hpath⟩ := List.exists_cons_of_ne_nil hne
    rw [hpath] at hplug hy hside ⊢
    rw [plug] at hplug
    obtain rfl : frame.item.ptr = y := Option.some.inj hy
    have hheld := h.held
    rw [← hplug, held_plug] at hheld
    have hnodup : (null :: ptrsAbove (frame :: rest)).Nodup := by
      have hnodup := h.nodup
      rw [← hplug] at hnodup
      exact (ptrs_plug_perm.cons null).nodup_iff.mp hnodup
    have hnewAbove : p ∉ ptrsAbove (frame :: rest) := by
      rw [← hplug, ptrs_plug_perm.mem_iff] at hnew
      exact hnew
    refine ensures_write hp hpnull rfl fun t₁ hkeeps₁ hroot₁ hfind₁ => ?_
    have hsame₁ : ∀ q ∈ ptrsAbove (frame :: rest), t₁.nodes.find? q = s.nodes.find? q := by
      intro q hq
      rw [hfind₁, if_neg]
      rintro rfl
      exact hnewAbove hq
    have habove₁ := hheld.1.congr hsame₁
    have hp₁ := hfind₁ p
    rw [if_pos rfl] at hp₁
    refine ensures_keyOf hp₁ ?_
    refine ensures_keyOf habove₁.1 ?_
    rw [LinkedNode.item_sided, LinkedNode.item_withParent, hside.setChild_eq]
    refine (ensures_setChild (hkeeps₁.null_eq.trans h.null_eq) habove₁ hnodup p).imp ?_
    rintro _ t ⟨habove, hroot, hsame, hkeeps⟩
    refine ⟨habove, ?_, ?_, hkeeps₁.trans hkeeps⟩
    · rw [hroot, hroot₁, h.root_eq, ← hplug, top_plug]
      rfl
    · rw [hsame p, hp₁]
      · rfl
      · rintro rfl
        exact hnewAbove List.mem_cons_self

/-- The new node with what `hang` has made of the memory. -/
theorem stands_position (h : Stands null s tree (some null)) (hplug : plug above .leaf = tree)
    (hnew : p ∉ ptrs tree) (hne : p ≠ null) {e : Placed (RbItem α)} (he : e.ptr = p)
    (hn : t.null = null) (habove : HeldAbove t.nodes null (some null) above p)
    (hroot : t.root = topAbove above p)
    (hfind : t.nodes.find? p =
      some ⟨e.item, parentOf (some null) above, some null, some null⟩) :
    Stands null t (plug above (.node .leaf e .leaf)) (some null) := by
  subst he
  refine ⟨hn, held_plug.mpr ⟨habove, hfind, trivial, trivial⟩, ?_, ?_⟩
  · have hperm : (ptrs (plug above (.node .leaf e .leaf))).Perm (e.ptr :: ptrs tree) := by
      rw [← hplug]
      exact ptrs_plug_perm.trans (ptrs_plug_perm.symm.cons e.ptr)
    refine (hperm.cons null).nodup_iff.mpr ?_
    obtain ⟨hnull, hnodup⟩ := List.nodup_cons.mp h.nodup
    rw [List.nodup_cons, List.nodup_cons, List.mem_cons, not_or]
    exact ⟨⟨Ne.symm hne, hnull⟩, hnew, hnodup⟩
  · rw [hroot, top_plug]
    rfl

/-- Inserting a node of the memory that is not in the tree yet. -/
theorem ensures_utilRbtreeInsert (h : Stands null s tree (some null))
    (hs : SentinelBlack null s) (hbalanced : Balanced itemColor tree .black n)
    (hp : s.nodes.find? p = some node) (hnew : p ∉ ptrs tree) (hne : p ≠ null) :
    Ensures (utilRbtreeInsert p) s (fun _ t => Fixed null { s with size := s.size + 1 }
      (plug (insertPath node.item.key tree []) (.node .leaf ⟨p, node.item⟩ .leaf)) (some null) t)
      E := by
  have hplug : plug (insertPath node.item.key tree []) .leaf = tree := plug_insertPath _ tree []
  rw [utilRbtreeInsert, ensures_bind, ensures_getNull, ensures_ite]
  refine ⟨fun heq => absurd (heq.trans h.null_eq) hne, fun _ => ?_⟩
  rw [ensures_bind]
  refine (ensures_hang h hp hnew hne).imp ?_
  rintro _ t₁ ⟨habove₁, hroot₁, hp₁, hkeeps₁⟩
  have hn₁ : t₁.null = null := hkeeps₁.null_eq.trans h.null_eq
  simp only [ensures_bind, ensures_getNull]
  refine ensures_write hp₁ (hn₁.symm ▸ hne) rfl fun t₂ hkeeps₂ hroot₂ hfind₂ => ?_
  have hn₂ : t₂.null = null := hkeeps₂.null_eq.trans hn₁
  have hp₂ := hfind₂ p
  rw [if_pos rfl] at hp₂
  refine ensures_write hp₂ (hn₂.symm ▸ hne) rfl fun t₃ hkeeps₃ hroot₃ hfind₃ => ?_
  have hn₃ : t₃.null = null := hkeeps₃.null_eq.trans hn₂
  have hp₃ := hfind₃ p
  rw [if_pos rfl] at hp₃
  refine ensures_write hp₃ (hn₃.symm ▸ hne) rfl fun t₄ hkeeps₄ hroot₄ hfind₄ => ?_
  have hn₄ : t₄.null = null := hkeeps₄.null_eq.trans hn₃
  have hkeeps : Keeps s t₄ := (hkeeps₁.trans hkeeps₂).trans (hkeeps₃.trans hkeeps₄)
  have hp₄ := hfind₄ p
  rw [if_pos rfl, hn₁, hn₂] at hp₄
  have habove₄ : HeldAbove t₄.nodes null (some null) (insertPath node.item.key tree []) p := by
    refine habove₁.congr fun q hq => ?_
    have hqp : q ≠ p := by
      rintro rfl
      rw [← hplug, ptrs_plug_perm.mem_iff] at hnew
      exact hnew hq
    rw [hfind₄, if_neg hqp, hfind₃, if_neg hqp, hfind₂, if_neg hqp]
  have hstands := stands_position (e := recolor .red ⟨p, node.item⟩) h hplug hnew hne rfl hn₄
    habove₄ (hroot₄.trans (hroot₃.trans (hroot₂.trans hroot₁))) hp₄
  rw [← hplug] at hbalanced
  obtain ⟨d, c, m, haround, hleaf, _⟩ := exists_around hbalanced
  cases hleaf
  have hred :
      Balanced itemColor (.node .leaf (recolor .red ⟨p, node.item⟩) .leaf : Tree α) .red 0 :=
    .red (itemColor_recolor _ _) .leaf .leaf
  have hshort : (insertPath node.item.key tree []).length < t₄.nodes.next + 1 := by
    have hlevels := h.held.levels_le (List.nodup_cons.mp h.nodup).2
    have hpath := levels_plug (insertPath node.item.key tree []) (.leaf : Tree α)
    rw [hplug] at hpath
    rw [hkeeps.next_eq]
    omega
  rw [ensures_maxTurns]
  refine (ensures_rbtreeInsertFixup hstands (hs.keeps h.null_eq hkeeps) hred haround hshort).imp ?_
  rintro _ t ⟨fixed, hfixed, hblack, hplains, hkeepst⟩
  refine ⟨fixed, ⟨hfixed.null_eq, hfixed.held, hfixed.nodup, hfixed.root_eq⟩, hblack, ?_, ?_⟩
  · rw [hplains]
    exact plains_plug_congr _ (by simp)
  · have hall := hkeeps.trans hkeepst
    exact ⟨hall.null_eq, congrArg (· + 1) hall.size_eq, hall.next_eq, hall.sentinel, hall.labels⟩

end Inserting

end FastDCS.RbTrees
