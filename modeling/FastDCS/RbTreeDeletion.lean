import FastDCS.RbTreeInsertion

/-!
`rbtree_delete_fixup`: the way up from a place where one black node is missing.
-/

namespace FastDCS.RbTrees

open FastDCS.Handlers
open FastDCS.Heaps
open FastDCS.SearchTrees
open FastDCS.SearchTrees.SearchTree
open FastDCS.LinkedTrees
open FastDCS.RedBlackTrees

variable {α : Type} {s t u : UtilRbtree α} {E : Fault → Prop} {p q null : Nat}
  {node : LinkedNode (RbItem α)} {tree tree' F W near far a b c : Tree α}
  {above : List (Frame (Placed (RbItem α)))} {rootParent : Option Nat}
  {e x y g : Placed (RbItem α)} {side : Side} {color c₁ c₂ d : Color} {n m : Nat}

section Missing

/-- A missing child is found to hang from this node. -/
def KnowsParent (null : Nat) (s : UtilRbtree α) (F : Tree α) (p : Nat) : Prop :=
  F = .leaf → ∃ sentinel, s.nodes.find? null = some sentinel ∧ sentinel.parent = some p

theorem KnowsParent.keeps (h : KnowsParent null s F p) (hn : s.null = null)
    (hkeeps : Keeps s t) : KnowsParent null t F p := by
  intro hleaf
  obtain ⟨sentinel, hfind, hparent⟩ := h hleaf
  refine ⟨sentinel, ?_, hparent⟩
  have hsame := hkeeps.sentinel
  rw [hn] at hsame
  exact hsame.trans hfind

theorem ensures_parent_focus {Q : Nat → UtilRbtree α → Prop}
    (h : Stands null s (plug above (.branch side F x W)) rootParent)
    (hF : KnowsParent null s F x.ptr) (hQ : Q x.ptr s) :
    Ensures (parent (top null F)) s Q E := by
  cases F with
  | leaf =>
      obtain ⟨sentinel, hfind, hparent⟩ := hF rfl
      exact ensures_parent hfind hparent hQ
  | node left e right =>
      have he := (held_branch.mp (held_plug.mp h.held).2).2.1.1
      exact ensures_parent he rfl hQ

end Missing

section Turns

/-- A red sibling comes up above the parent, which becomes red. -/
theorem ensures_blackSibling_red (hF : KnowsParent null s F x.ptr)
    (h : Stands null s (plug above (.branch side F x (.branch side a y b))) rootParent)
    (hred : itemColor y = .red) :
    Ensures (blackSibling side (top null F) y.ptr) s
      (fun r t => Stands null t (plug above (.branch side (.branch side F (recolor .red x) a)
        (recolor .black y) b)) rootParent ∧ Keeps s t ∧ r = top null a) E := by
  have hy := h
  rw [plug_far side] at hy
  rw [blackSibling, ensures_bind]
  refine ensures_colorOf hy.find?_place ?_
  rw [LinkedNode.item_sided, if_pos (show y.item.color = .red from hred), ensures_bind]
  refine (ensures_setColor hy .black).imp ?_
  rintro _ t₁ ⟨h₁, hkeeps₁⟩
  rw [← plug_far side] at h₁
  rw [ensures_bind]
  refine ensures_parent_focus h₁ (hF.keeps h.null_eq hkeeps₁) ?_
  rw [ensures_bind]
  refine (ensures_setColor h₁ .red).imp ?_
  rintro _ t₂ ⟨h₂, hkeeps₂⟩
  have hkeeps₁₂ := hkeeps₁.trans hkeeps₂
  rw [ensures_bind]
  refine ensures_parent_focus h₂ (hF.keeps h.null_eq hkeeps₁₂) ?_
  rw [ptr_recolor, ← ptr_recolor .red x, ensures_bind]
  refine (ensures_rotate h₂).imp ?_
  rintro _ t ⟨ht, hkeeps₃⟩
  have hkeeps := hkeeps₁₂.trans hkeeps₃
  have hplace := ht
  rw [plug_near side] at hplace
  rw [ensures_bind]
  refine ensures_parent_focus hplace (hF.keeps h.null_eq hkeeps) ?_
  refine ensures_child hplace.find?_place LinkedNode.child_other_sided ?_
  exact ⟨ht, hkeeps, rfl⟩

theorem ensures_blackSibling_black
    (h : Stands null s (plug above (.branch side F x (.branch side a y b))) rootParent)
    (hblack : itemColor y = .black) {Q : Nat → UtilRbtree α → Prop} (hQ : Q y.ptr s) (p : Nat) :
    Ensures (blackSibling side p y.ptr) s Q E := by
  rw [plug_far side] at h
  rw [blackSibling, ensures_bind]
  refine ensures_colorOf h.find?_place ?_
  have hne : ¬y.item.color = .red := by
    rw [show y.item.color = .black from hblack]
    exact nofun
  rw [LinkedNode.item_sided, if_neg hne]
  exact hQ

theorem ensures_blackChildren (hs : SentinelBlack null s)
    (h : Stands null s (plug above (.branch side a y b)) rootParent)
    (ha : Balanced itemColor a c₁ n) (hb : Balanced itemColor b c₂ n) :
    Ensures (blackChildren y.ptr) s
      (fun r t => (r = true ↔ c₁ = .black ∧ c₂ = .black) ∧ t = s) E := by
  obtain ⟨hy, haHeld, hbHeld⟩ := held_branch.mp (held_plug.mp h.held).2
  rw [blackChildren, ensures_bind]
  cases side with
  | left =>
      refine ensures_child hy rfl ?_
      rw [ensures_bind]
      refine ensures_colorOf_top hs haHeld ha ?_
      rw [ensures_ite]
      refine ⟨fun hblack => ?_, fun hred => ?_⟩
      · rw [ensures_bind]
        refine ensures_child hy rfl ?_
        rw [ensures_bind]
        refine ensures_colorOf_top hs hbHeld hb ?_
        rw [ensures_pure, decide_eq_true_iff]
        exact ⟨⟨fun hright => ⟨hblack, hright⟩, And.right⟩, rfl⟩
      · rw [ensures_pure]
        exact ⟨⟨nofun, fun hboth => absurd hboth.1 hred⟩, rfl⟩
  | right =>
      refine ensures_child hy rfl ?_
      rw [ensures_bind]
      refine ensures_colorOf_top hs hbHeld hb ?_
      rw [ensures_ite]
      refine ⟨fun hblack => ?_, fun hred => ?_⟩
      · rw [ensures_bind]
        refine ensures_child hy rfl ?_
        rw [ensures_bind]
        refine ensures_colorOf_top hs haHeld ha ?_
        rw [ensures_pure, decide_eq_true_iff]
        exact ⟨⟨fun hright => ⟨hright, hblack⟩, And.left⟩, rfl⟩
      · rw [ensures_pure]
        exact ⟨⟨nofun, fun hboth => absurd hboth.2 hred⟩, rfl⟩

/-- The sibling has a red child on its far side, if need be after a rotation. -/
theorem ensures_redFarChild (hs : SentinelBlack null s) (hF : KnowsParent null s F x.ptr)
    (h : Stands null s (plug above (.branch side F x (.branch side a y b))) rootParent)
    (ha : Balanced itemColor a c₁ n) (hb : Balanced itemColor b c₂ n)
    (hred : ¬(c₁ = .black ∧ c₂ = .black)) :
    Ensures (redFarChild side (top null F) y.ptr) s
      (fun r t => ∃ a' y' b' c, Stands null t (plug above (.branch side F x
          (.branch side a' y' b'))) rootParent ∧ Keeps s t ∧ r = y'.ptr ∧
        Balanced itemColor a' c n ∧ Balanced itemColor b' .red n ∧
        plains (.branch side a' y' b') = plains (.branch side a y b)) E := by
  have hplace := h
  rw [plug_far side] at hplace
  obtain ⟨hyFind, _, hbHeld⟩ := held_branch.mp (held_plug.mp hplace.held).2
  rw [redFarChild, ensures_bind]
  refine ensures_child hyFind LinkedNode.child_other_sided ?_
  rw [ensures_bind]
  refine ensures_colorOf_top hs hbHeld hb ?_
  rw [ensures_ite]
  refine ⟨fun hblack => ?_, fun hne => ?_⟩
  · subst hblack
    have hc : c₁ = .red := by
      cases c₁ with
      | red => rfl
      | black => exact absurd ⟨rfl, rfl⟩ hred
    subst hc
    cases ha with
    | @red left z right _ hz hleft hright =>
        obtain ⟨near, far, heq⟩ := exists_branch side left right z
        have hbalanced : Balanced itemColor (.branch side near z far) .red n :=
          heq ▸ .red hz hleft hright
        obtain ⟨_, hnear, hfar⟩ := hbalanced.of_branch_red
        rw [heq] at hplace hyFind ⊢
        rw [ensures_bind]
        refine ensures_child hyFind LinkedNode.child_sided ?_
        rw [plug_near side] at hplace
        rw [top_branch, ensures_bind]
        refine (ensures_setColor hplace .black).imp ?_
        rintro _ t₁ ⟨h₁, hkeeps₁⟩
        rw [← plug_near side] at h₁
        rw [ensures_bind]
        refine (ensures_setColor h₁ .red).imp ?_
        rintro _ t₂ ⟨h₂, hkeeps₂⟩
        rw [← branch_other side b, ← branch_other side far] at h₂
        rw [ensures_bind]
        refine (ensures_rotate h₂).imp ?_
        rintro _ t ⟨ht, hkeeps₃⟩
        rw [branch_other, branch_other, ← plug_far side] at ht
        have hkeeps := (hkeeps₁.trans hkeeps₂).trans hkeeps₃
        rw [ensures_bind]
        refine ensures_parent_focus ht (hF.keeps h.null_eq hkeeps) ?_
        refine ensures_child ht.find?_place LinkedNode.child_other_sided ?_
        refine ⟨_, _, _, _, ht, hkeeps, ?_, hnear,
          .branch_red (itemColor_recolor _ _) hfar hb, ?_⟩
        · rw [top_branch]
        · rw [plains_rotate]
          exact plains_branch_congr side (plains_branch_congr side rfl (plain_recolor _ _) rfl)
            (plain_recolor _ _) rfl
  · have hc : c₂ = .red := by
      cases c₂ with
      | red => rfl
      | black => exact absurd rfl hne
    subst hc
    exact ⟨a, y, b, _, h, Keeps.refl s, rfl, ha, hb, rfl⟩

/-- The sibling comes up above the parent, whose colour it takes. -/
theorem ensures_liftSibling (hF : KnowsParent null s F x.ptr)
    (h : Stands null s (plug above (.branch side F x (.branch side a y (.branch side b g c))))
      rootParent) :
    Ensures (liftSibling side (top null F) y.ptr) s
      (fun _ t => Stands null t (plug above (.branch side
          (.branch side F (recolor .black x) a) (recolor (itemColor x) y)
          (.branch side b (recolor .black g) c))) rootParent ∧ Keeps s t) E := by
  rw [liftSibling, ensures_bind]
  refine ensures_parent_focus h hF ?_
  rw [ensures_bind]
  refine ensures_colorOf h.find?_place ?_
  rw [LinkedNode.item_sided, show x.item.color = itemColor x from rfl]
  rw [plug_far side] at h
  rw [ensures_bind]
  refine (ensures_setColor h (itemColor x)).imp ?_
  rintro _ t₁ ⟨h₁, hkeeps₁⟩
  rw [← plug_far side] at h₁
  rw [ensures_bind]
  refine ensures_parent_focus h₁ (hF.keeps h.null_eq hkeeps₁) ?_
  rw [ensures_bind]
  refine (ensures_setColor h₁ .black).imp ?_
  rintro _ t₂ ⟨h₂, hkeeps₂⟩
  have hkeeps₁₂ := hkeeps₁.trans hkeeps₂
  rw [plug_far side] at h₂
  rw [ensures_bind]
  refine ensures_child h₂.find?_place LinkedNode.child_other_sided ?_
  rw [plug_far side] at h₂
  rw [top_branch, ensures_bind]
  refine (ensures_setColor h₂ .black).imp ?_
  rintro _ t₃ ⟨h₃, hkeeps₃⟩
  have hkeeps₁₃ := hkeeps₁₂.trans hkeeps₃
  rw [← plug_far side, ← plug_far side] at h₃
  rw [ensures_bind]
  refine ensures_parent_focus h₃ (hF.keeps h.null_eq hkeeps₁₃) ?_
  refine (ensures_rotate h₃).imp ?_
  rintro _ t ⟨ht, hkeeps₄⟩
  exact ⟨ht, hkeeps₁₃.trans hkeeps₄⟩

/-- The loop ends at this node, and the tree is balanced once the node is black. -/
def Ends (tree : Tree α) (p : Nat) : Prop :=
  ∃ above left e right n, tree = plug above (.node left e right) ∧ p = e.ptr ∧
    (itemColor e = .red ∨ above = []) ∧
    Balanced itemColor (plug above (.node left (recolor .black e) right)) .black n

theorem Ends.of_branch (hx : itemColor x = .red)
    (h : Balanced itemColor (plug above (.branch side near (recolor .black x) far)) .black n) :
    Ends (plug above (.branch side near x far)) x.ptr := by
  cases side with
  | left => exact ⟨above, near, x, far, n, rfl, rfl, Or.inl hx, h⟩
  | right => exact ⟨above, far, x, near, n, rfl, rfl, Or.inl hx, h⟩

theorem Ends.of_root (h : Balanced itemColor tree .black n) (hne : tree ≠ .leaf) :
    Ends tree (top null tree) := by
  cases tree with
  | leaf => exact absurd rfl hne
  | node left e right =>
      cases h with
      | black hitem hleft hright =>
          exact ⟨[], left, e, right, _, rfl, rfl, Or.inr rfl,
            .black (itemColor_recolor _ _) hleft hright⟩

/-- The end of a turn: either the place of the parent has the missing black node now, or
the loop ends. -/
theorem ensures_settle (hs : SentinelBlack null s) (hF : KnowsParent null s F x.ptr)
    (h : Stands null s (plug above (.branch side F x (.branch side a y b))) rootParent)
    (hbF : Balanced itemColor F .black m)
    (hbW : Balanced itemColor (.branch side a y b) .black (m + 1))
    (habove : Around itemColor (.toward side x (.branch side a y b) :: above) d (m + 1)) :
    Ensures (settle side (top null F) y.ptr) s
      (fun r t => ∃ tree', Stands null t tree' rootParent ∧ Keeps s t ∧
        plains tree' = plains (plug above (.branch side F x (.branch side a y b))) ∧
        (Ends tree' r ∨ itemColor x = .black ∧ ∃ G d', tree' = plug above G ∧ r = top null G ∧
          Balanced itemColor G .black (m + 1) ∧ Around itemColor above d' (m + 2))) E := by
  obtain ⟨_, c₁, c₂, hm, hy, ha, hb⟩ := hbW.of_branch_black
  obtain rfl := Nat.succ.inj hm
  have hplace := h
  rw [plug_far side] at hplace
  rw [settle, ensures_bind]
  refine (ensures_blackChildren hs hplace ha hb).imp ?_
  rintro both t ⟨hboth, rfl⟩
  rw [ensures_ite]
  refine ⟨fun htrue => ?_, fun hfalse => ?_⟩
  · -- the black of the sibling goes up to the parent
    obtain ⟨rfl, rfl⟩ := hboth.mp htrue
    rw [ensures_bind]
    refine (ensures_setColor hplace .red).imp ?_
    rintro _ t₁ ⟨h₁, hkeeps₁⟩
    rw [← plug_far side] at h₁
    refine ensures_parent_focus h₁ (hF.keeps h.null_eq hkeeps₁) ?_
    have hsibling : Balanced itemColor (.branch side a (recolor .red y) b) .red m :=
      .branch_red (itemColor_recolor _ _) ha hb
    refine ⟨_, h₁, hkeeps₁, plains_plug_congr above (plains_branch_congr side rfl rfl
      (plains_branch_congr side rfl (plain_recolor _ _) rfl)), ?_⟩
    rcases habove.of_toward with ⟨hx, _, _, _, hrest⟩ | ⟨hx, _, _, d', _, hrest⟩
    · have hparent : Balanced itemColor (.branch side F (recolor .black x)
          (.branch side a (recolor .red y) b)) .black (m + 1) :=
        .branch_black (itemColor_recolor _ _) hbF hsibling
      obtain ⟨k, hall⟩ := hrest.plug hparent (fits_black _ _)
      exact Or.inl (Ends.of_branch hx hall)
    · exact Or.inr ⟨hx, _, d', rfl, top_branch.symm, .branch_black hx hbF hsibling, hrest⟩
  · -- the sibling comes up, and its far child becomes black
    rw [ensures_bind]
    refine (ensures_redFarChild hs hF h ha hb fun hblack => hfalse (hboth.mpr hblack)).imp ?_
    rintro _ t₁ ⟨a', y', b', c, h₁, hkeeps₁, rfl, ha', hb', hplains⟩
    cases hb' with
    | @red left z right _ hz hleft hright =>
        obtain ⟨near, far, heq⟩ := exists_branch side left right z
        have hbalanced : Balanced itemColor (.branch side near z far) .red m :=
          heq ▸ .red hz hleft hright
        obtain ⟨_, hnear, hfar⟩ := hbalanced.of_branch_red
        rw [heq] at h₁ hplains
        rw [ensures_bind]
        refine (ensures_liftSibling (hF.keeps h.null_eq hkeeps₁) h₁).imp ?_
        rintro _ t₂ ⟨h₂, hkeeps₂⟩
        rw [ensures_getRoot]
        refine ⟨_, h₂, hkeeps₁.trans hkeeps₂, ?_, Or.inl ?_⟩
        · refine plains_plug_congr above ?_
          have hcolors : plains (.branch side (.branch side F (recolor .black x) a')
              (recolor (itemColor x) y') (.branch side near (recolor .black z) far)) =
              plains (.branch side (.branch side F x a') y' (.branch side near z far)) :=
            plains_branch_congr side (plains_branch_congr side rfl (plain_recolor _ _) rfl)
              (plain_recolor _ _) (plains_branch_congr side rfl (plain_recolor _ _) rfl)
          rw [hcolors, ← plains_rotate]
          exact plains_branch_congr side rfl rfl hplains
        · have hnearer : Balanced itemColor (.branch side F (recolor .black x) a') .black (m + 1) :=
            .branch_black (itemColor_recolor _ _) hbF ha'
          have hfarther : Balanced itemColor (.branch side near (recolor .black z) far) .black
              (m + 1) :=
            .branch_black (itemColor_recolor _ _) hnear hfar
          rw [h₂.root_eq]
          have hne := branch_ne_leaf side (.branch side F (recolor .black x) a')
            (.branch side near (recolor .black z) far) (recolor (itemColor x) y')
          rcases habove.of_toward with ⟨hx, _, _, hrestNe, hrest⟩ | ⟨hx, _, _, d', _, hrest⟩
          · have hlifted :
                Balanced itemColor (.branch side _ (recolor (itemColor x) y') _) .red _ :=
              .branch_red ((itemColor_recolor _ y').trans hx) hnearer hfarther
            obtain ⟨k, hall⟩ := hrest.plug hlifted ⟨nofun, fun hnil => absurd hnil hrestNe⟩
            exact Ends.of_root hall (plug_ne_leaf hne above)
          · have hlifted : Balanced itemColor (.branch side _ (recolor (itemColor x) y') _) .black
                _ :=
              .branch_black ((itemColor_recolor _ y').trans hx) hnearer hfarther
            obtain ⟨k, hall⟩ := hrest.plug hlifted (fits_black _ _)
            exact Ends.of_root hall (plug_ne_leaf hne above)

theorem ensures_deleteFixupOn (hs : SentinelBlack null s) (hF : KnowsParent null s F x.ptr)
    (h : Stands null s (plug above (.branch side F x W)) rootParent)
    (hbF : Balanced itemColor F .black m)
    (habove : Around itemColor (.toward side x W :: above) d (m + 1)) :
    Ensures (deleteFixupOn side (top null F)) s
      (fun r t => ∃ tree', Stands null t tree' rootParent ∧ Keeps s t ∧
        plains tree' = plains (plug above (.branch side F x W)) ∧
        (Ends tree' r ∨ ∃ G d', tree' = plug above G ∧ r = top null G ∧
          Balanced itemColor G .black (m + 1) ∧ Around itemColor above d' (m + 2))) E := by
  obtain ⟨c, hW⟩ : ∃ c, Balanced itemColor W c (m + 1) := by
    rcases habove.of_toward with ⟨_, _, hW, _⟩ | ⟨_, _, c, _, hW, _⟩
    · exact ⟨_, hW⟩
    · exact ⟨c, hW⟩
  obtain ⟨a, y, b, rfl⟩ := hW.exists_top side
  rw [deleteFixupOn, ensures_bind]
  refine ensures_parent_focus h hF ?_
  rw [ensures_bind]
  refine ensures_child h.find?_place LinkedNode.child_other_sided ?_
  rw [top_branch, ensures_bind]
  cases c with
  | black =>
      obtain ⟨_, _, _, _, hy, _⟩ := hW.of_branch_black
      refine ensures_blackSibling_black h hy ?_ (top null F)
      refine (ensures_settle hs hF h hbF hW habove).imp ?_
      rintro r t ⟨tree', ht, hkeeps, hplains, hend | ⟨_, hrest⟩⟩
      · exact ⟨tree', ht, hkeeps, hplains, Or.inl hend⟩
      · exact ⟨tree', ht, hkeeps, hplains, Or.inr hrest⟩
  | red =>
      -- the parent is black, and becomes red below the sibling
      obtain ⟨hy, ha, hb⟩ := hW.of_branch_red
      rcases habove.of_toward with ⟨_, _, hblack, _⟩ | ⟨hx, _, _, d', _, hrest⟩
      · exact absurd (hW.topColor_eq.symm.trans hblack.topColor_eq) nofun
      refine (ensures_blackSibling_red hF h hy).imp ?_
      rintro _ t₁ ⟨h₁, hkeeps₁, rfl⟩
      obtain ⟨a', z, b', rfl⟩ := ha.exists_top side
      have hgrand : Around itemColor (.toward side (recolor .black y) b :: above) .black (m + 1) :=
        .black (itemColor_recolor _ _) hb hrest
      have hplace : Around itemColor (.toward side (recolor .red x) (.branch side a' z b') ::
          .toward side (recolor .black y) b :: above) .red (m + 1) :=
        .red (itemColor_recolor _ _) ha (List.cons_ne_nil _ _) hgrand
      rw [plug_near side] at h₁
      rw [top_branch]
      have hF₁ : KnowsParent null t₁ F (recolor .red x).ptr := hF.keeps h.null_eq hkeeps₁
      refine (ensures_settle (hs.keeps h.null_eq hkeeps₁) hF₁ h₁ hbF ha hplace).imp ?_
      rintro r t ⟨tree', ht, hkeeps, hplains, hend | ⟨hblack, _⟩⟩
      · refine ⟨tree', ht, hkeeps₁.trans hkeeps, hplains.trans ?_, Or.inl hend⟩
        rw [← plug_near side]
        refine plains_plug_congr above ?_
        rw [plains_rotate]
        exact plains_branch_congr side (plains_branch_congr side rfl (plain_recolor _ _) rfl)
          (plain_recolor _ _) rfl
      · exact absurd hblack nofun

end Turns

theorem ensures_fixupEnds (h : Stands null s tree rootParent) (hend : Ends tree p)
    (turns : Nat) :
    Ensures (rbtreeDeleteFixup (turns + 1) p) s
      (fun _ t => Fixed null s tree rootParent t) E := by
  obtain ⟨above, left, e, right, n, rfl, rfl, hcolor, hbalanced⟩ := hend
  have hplace : Stands null s (plug above (.branch .left left e right)) rootParent := h
  have hblacken : Ensures (setColor e.ptr .black) s
      (fun _ t => Fixed null s (plug above (.node left e right)) rootParent t) E := by
    refine (ensures_setColor hplace .black).imp ?_
    rintro _ t ⟨ht, hkeeps⟩
    exact ⟨_, ht, ⟨n, hbalanced⟩, plains_plug_congr above
      (plains_branch_congr .left rfl (plain_recolor _ _) rfl), hkeeps⟩
  rw [rbtreeDeleteFixup, ensures_bind, ensures_getRoot, ensures_bind]
  refine ensures_colorOf hplace.find?_place ?_
  rw [LinkedNode.item_sided, if_neg]
  · exact hblacken
  · rintro ⟨hne, hblack⟩
    rcases hcolor with hred | rfl
    · rw [itemColor, hblack] at hred
      exact absurd hred nofun
    · exact hne h.root_eq.symm

theorem ensures_rbtreeDeleteFixup {turns : Nat} (hs : SentinelBlack null s)
    (h : Stands null s (plug above F) rootParent) (hF : Balanced itemColor F color m)
    (habove : Around itemColor above d (m + 1))
    (hmissing : F = .leaf → ∃ frame rest, above = frame :: rest ∧
      KnowsParent null s F frame.item.ptr)
    (hturns : above.length < turns) :
    Ensures (rbtreeDeleteFixup turns (top null F)) s
      (fun _ t => Fixed null s (plug above F) rootParent t) E := by
  induction turns generalizing above F s m color d with
  | zero => exact absurd hturns (Nat.not_lt_zero _)
  | succ turns ih =>
      cases color with
      | red =>
          refine ensures_fixupEnds h ?_ turns
          cases hF with
          | @red left e right _ he hleft hright =>
              obtain ⟨k, hall⟩ := habove.plug
                (.black (itemColor_recolor .black e) hleft hright) (fits_black _ _)
              exact ⟨above, left, e, right, k, rfl, rfl, Or.inl he, hall⟩
      | black =>
          cases above with
          | nil =>
              refine ensures_fixupEnds h (Ends.of_root hF ?_) turns
              intro hleaf
              obtain ⟨_, _, hnil, _⟩ := hmissing hleaf
              exact absurd hnil.symm (List.cons_ne_nil _ _)
          | cons frame above =>
              obtain ⟨side, x, W, rfl⟩ := frame.exists_toward
              have hknows : KnowsParent null s F x.ptr := by
                intro hleaf
                obtain ⟨_, _, heq, hknows⟩ := hmissing hleaf
                obtain ⟨rfl, rfl⟩ := List.cons.inj heq
                rw [Frame.item_toward] at hknows
                exact hknows hleaf
              have hW : W ≠ .leaf := by
                rintro rfl
                rcases habove.of_toward with ⟨_, _, hW, _⟩ | ⟨_, _, _, _, hW, _⟩ <;> cases hW
              rw [← plug_near side] at h ⊢
              have hturn : Ensures (do
                  rbtreeDeleteFixup turns (← deleteFixupOn side (top null F))) s
                  (fun _ t => Fixed null s (plug above (.branch side F x W)) rootParent t) E := by
                rw [ensures_bind]
                refine (ensures_deleteFixupOn hs hknows h hF habove).imp ?_
                rintro r t ⟨tree', ht, hkeeps, hplains, hend | ⟨G, d', rfl, rfl, hG, hrest⟩⟩
                · obtain ⟨turns', rfl⟩ : ∃ turns', turns = turns' + 1 :=
                    Nat.exists_eq_succ_of_ne_zero (by rw [List.length_cons] at hturns; omega)
                  refine (ensures_fixupEnds ht hend turns').imp ?_
                  exact fun _ u hfixed => hfixed.of_step hplains hkeeps
                · refine (ih (hs.keeps h.null_eq hkeeps) ht hG hrest ?_ ?_).imp ?_
                  · rintro rfl
                    cases hG
                  · rw [List.length_cons] at hturns
                    omega
                  · exact fun _ u hfixed => hfixed.of_step hplains hkeeps
              have hx := h.find?_place
              have hheld := (held_branch.mp (held_plug.mp h.held).2).2.1
              rw [rbtreeDeleteFixup, ensures_bind, ensures_getRoot, ensures_bind]
              refine ensures_colorOf_top hs hheld hF ?_
              rw [if_pos ⟨h.top_ne_root, rfl⟩, ensures_bind]
              refine ensures_parent_focus h hknows ?_
              rw [ensures_bind]
              cases side with
              | left =>
                  refine ensures_child hx rfl ?_
                  rw [if_pos rfl]
                  exact hturn
              | right =>
                  refine ensures_child hx rfl ?_
                  have hne : top null F ≠ top null W := by
                    rw [← branch_other] at h
                    exact (h.top_ne_top hW).symm
                  rw [if_neg hne]
                  exact hturn

end FastDCS.RbTrees
