import FastDCS.RbTreeDeletion

/-!
`util_rbtree_delete`: which node leaves its position, and what takes its place.
-/

namespace FastDCS.RbTrees

open FastDCS.Handlers
open FastDCS.Heaps
open FastDCS.SearchTrees
open FastDCS.SearchTrees.SearchTree
open FastDCS.LinkedTrees
open FastDCS.RedBlackTrees

variable {α : Type} {s t u : UtilRbtree α} {E : Fault → Prop} {p q null : Nat}
  {node : LinkedNode (RbItem α)} {tree tree' F R left right : Tree α}
  {above path : List (Frame (Placed (RbItem α)))} {frame : Frame (Placed (RbItem α))}
  {rootParent below : Option Nat} {e x y g : Placed (RbItem α)} {side : Side}
  {color c₁ c₂ d : Color} {n m : Nat}

/-- What a call leaves alone: no node is made or freed, and the sentinel stays black. -/
structure Spares (s t : UtilRbtree α) : Prop where
  null_eq : t.null = s.null
  size_eq : t.size = s.size
  next_eq : t.nodes.next = s.nodes.next
  black : SentinelBlack s.null s → SentinelBlack s.null t
  labels : ∀ p, (t.nodes.find? p).map label = (s.nodes.find? p).map label

theorem Keeps.spares (h : Keeps s t) : Spares s t where
  null_eq := h.null_eq
  size_eq := h.size_eq
  next_eq := h.next_eq
  black hs := hs.keeps rfl h
  labels := h.labels

theorem Spares.refl (s : UtilRbtree α) : Spares s s := (Keeps.refl s).spares

theorem Spares.trans (hst : Spares s t) (htu : Spares t u) : Spares s u where
  null_eq := htu.null_eq.trans hst.null_eq
  size_eq := htu.size_eq.trans hst.size_eq
  next_eq := htu.next_eq.trans hst.next_eq
  black hs := by
    have h := htu.black
    rw [hst.null_eq] at h
    exact h (hst.black hs)
  labels p := (htu.labels p).trans (hst.labels p)

/-- A write to any node that leaves the colours as they are. -/
theorem Spares.write {nodes : Heap (LinkedNode (RbItem α))} {node' : LinkedNode (RbItem α)}
    (h : s.nodes.find? p = some node) (hnext : nodes.next = s.nodes.next)
    (hfind : ∀ q, nodes.find? q = if q = p then some node' else s.nodes.find? q)
    (hlabel : label node' = label node) (hcolor : node'.item.color = node.item.color) :
    Spares s { s with nodes := nodes } where
  null_eq := rfl
  size_eq := rfl
  next_eq := hnext
  black hs := by
    obtain ⟨sentinel, hsentinel, hblack⟩ := hs
    by_cases hp : s.null = p
    · refine ⟨node', by rw [hfind, if_pos hp], hcolor.trans ?_⟩
      rw [hp, h] at hsentinel
      rw [Option.some.inj hsentinel, hblack]
    · exact ⟨sentinel, by rw [hfind, if_neg hp, hsentinel], hblack⟩
  labels q := by
    rw [hfind]
    split_ifs with hq
    · rw [hq, h, Option.map_some, Option.map_some, hlabel]
    · rfl

theorem Spares.live (h : Spares s t) (p : Nat) :
    (t.nodes.find? p).isSome = (s.nodes.find? p).isSome := isSome_of_labels (h.labels p)

section Steps

/-- What takes a position, maybe only the sentinel, gets its parent. -/
theorem ensures_setParent_top (hn : s.null = null) (hs : SentinelBlack null s)
    (h : Held s.nodes null below F) (hnodup : (null :: ptrs F).Nodup) (q : Nat) :
    Ensures (setParent (top null F) (some q)) s
      (fun _ t => Held t.nodes null (some q) F ∧ KnowsParent null t F q ∧ t.root = s.root ∧
        (∀ r, r ∉ ptrs F → r ≠ null → t.nodes.find? r = s.nodes.find? r) ∧ Spares s t) E := by
  cases F with
  | leaf =>
      obtain ⟨sentinel, hfind, _⟩ := hs
      refine ensures_update hfind fun nodes hnext hwrite => ?_
      refine ⟨trivial, fun _ => ⟨_, (hwrite null).trans (if_pos rfl), rfl⟩, rfl,
        fun r _ hr => ?_, Spares.write hfind hnext hwrite rfl rfl⟩
      exact (hwrite r).trans (if_neg hr)
  | node left e right =>
      have hne : top null (.node left e right) ≠ null := by
        intro heq
        exact (List.nodup_cons.mp hnodup).1 (mem_ptrs_node.mpr (Or.inr (Or.inl heq.symm)))
      have hadopt := ensures_adopt (E := E) hn h hnodup q
      rw [if_pos hne] at hadopt
      refine hadopt.imp ?_
      rintro _ t ⟨hheld, hroot, hsame, hkeeps⟩
      exact ⟨hheld, nofun, hroot, fun r hr _ => hsame r hr, hkeeps.spares⟩

/-- A node leaves its position to its child, whose parent is `q` from then on. -/
theorem ensures_detach (p' : Nat) (hn : s.null = null) (hs : SentinelBlack null s)
    (h : HeldAbove s.nodes null rootParent (frame :: above) p)
    (hp : s.nodes.find? p = some node) (hparent : node.parent = some frame.item.ptr)
    (hF : Held s.nodes null (some p) F)
    (hnodup : (null :: p :: (ptrs F ++ ptrsAbove (frame :: above))).Nodup)
    (hq : q = if frame.item.ptr = p' then p else frame.item.ptr) :
    Ensures (detach p' p (top null F)) s
      (fun _ t => HeldAbove t.nodes null rootParent (frame :: above) (top null F) ∧
        Held t.nodes null (some q) F ∧ KnowsParent null t F q ∧ t.root = s.root ∧
        t.nodes.find? p = s.nodes.find? p ∧ Spares s t) E := by
  simp only [List.nodup_cons, List.nodup_append, List.mem_cons, List.mem_append,
    not_or] at hnodup
  obtain ⟨⟨hnp, hnF, hnabove⟩, ⟨hpF, hpabove⟩, hFnodup, habovenodup, hcross⟩ := hnodup
  have hset : Ensures (setParent (top null F) (some q)) s
      (fun _ t => Held t.nodes null (some q) F ∧ KnowsParent null t F q ∧ t.root = s.root ∧
        (∀ r, r ∉ ptrs F → r ≠ null → t.nodes.find? r = s.nodes.find? r) ∧ Spares s t) E :=
    ensures_setParent_top hn hs hF (List.nodup_cons.mpr ⟨hnF, hFnodup⟩) q
  have hrest : ∀ t₁, (Held t₁.nodes null (some q) F ∧ KnowsParent null t₁ F q ∧
      t₁.root = s.root ∧ (∀ r, r ∉ ptrs F → r ≠ null → t₁.nodes.find? r = s.nodes.find? r) ∧
      Spares s t₁) → Ensures (do relink (← parent p) p (top null F)) t₁
      (fun _ t => HeldAbove t.nodes null rootParent (frame :: above) (top null F) ∧
        Held t.nodes null (some q) F ∧ KnowsParent null t F q ∧ t.root = s.root ∧
        t.nodes.find? p = s.nodes.find? p ∧ Spares s t) E := by
    rintro t₁ ⟨hF₁, hknows₁, hroot₁, hsame₁, hspares₁⟩
    have hp₁ := (hsame₁ p hpF (Ne.symm hnp)).trans hp
    have habove₁ : HeldAbove t₁.nodes null rootParent (frame :: above) p :=
      h.congr fun r hr => hsame₁ r (fun hrF => hcross r hrF r hr rfl) (by
        rintro rfl
        exact hnabove hr)
    have hplace : (null :: p :: ptrsAbove (frame :: above)).Nodup := by
      simp only [List.nodup_cons, List.mem_cons, not_or]
      exact ⟨⟨hnp, hnabove⟩, hpabove, habovenodup⟩
    have hn₁ : t₁.null = null := hspares₁.null_eq.trans hn
    rw [ensures_bind]
    refine ensures_parent hp₁ hparent ((ensures_relink hn₁ habove₁ hplace).imp ?_)
    rintro _ t ⟨habove, hroot, hsame, hkeeps⟩
    have hframe : frame.item.ptr ∈ ptrsAbove (frame :: above) := List.mem_cons_self
    refine ⟨habove, hF₁.congr fun r hr => hsame r ?_, hknows₁.keeps hn₁ hkeeps,
      hroot.trans hroot₁, ?_, hspares₁.trans hkeeps.spares⟩
    · rintro rfl
      exact hcross _ hr _ hframe rfl
    · rw [hsame p, hp₁, hp]
      rintro rfl
      exact hpabove hframe
  rw [detach, ensures_bind]
  refine ensures_parent hp hparent ?_
  rw [ensures_ite]
  refine ⟨fun heq => ?_, fun hne => ?_⟩
  · rw [if_pos heq] at hq
    subst hq
    rw [ensures_bind]
    exact hset.imp fun _ t₁ h₁ => hrest t₁ h₁
  · rw [if_neg hne] at hq
    rw [ensures_bind]
    refine ensures_nodeAt hp ?_
    rw [hparent, ← hq, ensures_bind]
    exact hset.imp fun _ t₁ h₁ => hrest t₁ h₁

theorem ensures_adoptChild (hn : s.null = null) (hp : s.nodes.find? p = some node)
    (hchild : node.child side = some (top null F)) (h : Held s.nodes null below F)
    (hnodup : (null :: ptrs F).Nodup) :
    Ensures (adopt side p) s
      (fun _ t => Held t.nodes null (some p) F ∧ t.root = s.root ∧
        (∀ q, q ∉ ptrs F → t.nodes.find? q = s.nodes.find? q) ∧ Keeps s t) E := by
  have hadopt := ensures_adopt (E := E) hn h hnodup p
  rw [adopt, ensures_bind]
  refine ensures_child hp hchild ?_
  rw [ensures_bind, ensures_getNull, hn]
  by_cases heq : top null F = null
  · rw [if_neg (not_not.mpr heq)] at hadopt ⊢
    exact hadopt
  · rw [if_pos heq] at hadopt ⊢
    rw [ensures_bind]
    exact ensures_child hp hchild hadopt

/-- `temp` takes the place of `node`, with the children and the colour of it. -/
theorem ensures_takePlace (hn : s.null = null)
    (habove : HeldAbove s.nodes null rootParent above e.ptr) (hroot : s.root = topAbove above e.ptr)
    (he : s.nodes.find? e.ptr =
      some ⟨e.item, parentOf rootParent above, some (top null left), some (top null R)⟩)
    (hleft : Held s.nodes null (some e.ptr) left) (hR : Held s.nodes null below R)
    (hx : s.nodes.find? x.ptr = some node) (hitem : node.item = x.item)
    (hnodup : (null :: x.ptr :: e.ptr ::
      (ptrs left ++ (ptrs R ++ ptrsAbove above))).Nodup) :
    Ensures (takePlace x.ptr e.ptr) s
      (fun _ t => Stands null t (plug above (.node left (recolor (itemColor e) x) R)) rootParent ∧
        Keeps s t) E := by
  have hnodup' := hnodup
  simp only [List.nodup_cons, List.nodup_append, List.mem_cons, List.mem_append,
    not_or] at hnodup
  obtain ⟨⟨hnx, hne, hnl, hnR, hnabove⟩, ⟨hxe, hxl, hxR, hxabove⟩, ⟨hel, heR, heabove⟩,
    hlnodup, ⟨hRnodup, habovenodup, hRabove⟩, hlrest⟩ := hnodup
  simp only [takePlace, ensures_bind]
  refine ensures_nodeAt he ?_
  -- the parent of the node
  refine ensures_write hx (hn ▸ Ne.symm hnx) rfl fun s₁ hkeeps₁ hroot₁ hfind₁ => ?_
  have hn₁ : s₁.null = null := hkeeps₁.null_eq.trans hn
  have hsame₁ : ∀ q, q ≠ x.ptr → s₁.nodes.find? q = s.nodes.find? q := fun q hq => by
    rw [hfind₁, if_neg hq]
  have habove₁ : HeldAbove s₁.nodes null rootParent above e.ptr :=
    habove.congr fun q hq => hsame₁ q (by
      rintro rfl
      exact hxabove hq)
  have he₁ := (hsame₁ e.ptr (Ne.symm hxe)).trans he
  have hplace : (null :: e.ptr :: ptrsAbove above).Nodup := by
    simp only [List.nodup_cons, List.mem_cons, not_or]
    exact ⟨⟨hne, hnabove⟩, heabove, habovenodup⟩
  refine (ensures_replace hn₁ habove₁ (hroot₁.trans hroot) he₁ rfl hplace x.ptr).imp ?_
  rintro _ s₂ ⟨habove₂, hroot₂, hsame₂, hkeeps₂⟩
  have hn₂ : s₂.null = null := hkeeps₂.null_eq.trans hn₁
  have he₂ := (hsame₂ e.ptr heabove).trans he₁
  have hx₂ := (hsame₂ x.ptr hxabove).trans (hfind₁ x.ptr)
  rw [if_pos rfl] at hx₂
  -- the children of the node
  refine ensures_child he₂ rfl ?_
  refine ensures_write hx₂ (hn₂ ▸ Ne.symm hnx) rfl fun s₃ hkeeps₃ hroot₃ hfind₃ => ?_
  have hn₃ : s₃.null = null := hkeeps₃.null_eq.trans hn₂
  have he₃ := hfind₃ e.ptr
  rw [if_neg (Ne.symm hxe), he₂] at he₃
  have hx₃ := hfind₃ x.ptr
  rw [if_pos rfl] at hx₃
  refine ensures_child he₃ rfl ?_
  refine ensures_write hx₃ (hn₃ ▸ Ne.symm hnx) rfl fun s₄ hkeeps₄ hroot₄ hfind₄ => ?_
  have hn₄ : s₄.null = null := hkeeps₄.null_eq.trans hn₃
  have he₄ := hfind₄ e.ptr
  rw [if_neg (Ne.symm hxe), he₃] at he₄
  have hx₄ := hfind₄ x.ptr
  rw [if_pos rfl] at hx₄
  have hsame₄ : ∀ q, q ≠ x.ptr → q ∉ ptrsAbove above →
      s₄.nodes.find? q = s.nodes.find? q := by
    intro q hqx hqabove
    rw [hfind₄, if_neg hqx, hfind₃, if_neg hqx, hsame₂ q hqabove, hsame₁ q hqx]
  have hleft₄ : Held s₄.nodes null (some e.ptr) left := hleft.congr fun q hq => by
    refine hsame₄ q ?_ fun hqabove => hlrest q hq q (Or.inr hqabove) rfl
    rintro rfl
    exact hxl hq
  have hR₄ : Held s₄.nodes null below R := hR.congr fun q hq => by
    refine hsame₄ q ?_ fun hqabove => hRabove q hq q hqabove rfl
    rintro rfl
    exact hxR hq
  have habove₄ : HeldAbove s₄.nodes null rootParent above x.ptr := habove₂.congr fun q hq => by
    have hqx : q ≠ x.ptr := by
      rintro rfl
      exact hxabove hq
    rw [hfind₄, if_neg hqx, hfind₃, if_neg hqx]
  -- the children learn of their parent
  refine (ensures_adoptChild hn₄ hx₄ rfl hleft₄ (List.nodup_cons.mpr ⟨hnl, hlnodup⟩)).imp ?_
  rintro _ s₅ ⟨hleft₅, hroot₅, hsame₅, hkeeps₅⟩
  have hn₅ : s₅.null = null := hkeeps₅.null_eq.trans hn₄
  have hx₅ := (hsame₅ x.ptr hxl).trans hx₄
  have hR₅ : Held s₅.nodes null below R := hR₄.congr fun q hq => hsame₅ q fun hql =>
    hlrest q hql q (Or.inl hq) rfl
  refine (ensures_adoptChild hn₅ hx₅ rfl hR₅ (List.nodup_cons.mpr ⟨hnR, hRnodup⟩)).imp ?_
  rintro _ s₆ ⟨hR₆, hroot₆, hsame₆, hkeeps₆⟩
  have hx₆ := (hsame₆ x.ptr hxR).trans hx₅
  have he₆ := (hsame₆ e.ptr heR).trans ((hsame₅ e.ptr hel).trans he₄)
  have hkeeps : Keeps s s₆ := (hkeeps₁.trans hkeeps₂).trans
    ((hkeeps₃.trans hkeeps₄).trans (hkeeps₅.trans hkeeps₆))
  have hstands : Stands null s₆ (plug above (.branch .left left x R)) rootParent := by
    refine ⟨hkeeps₆.null_eq.trans hn₅, ?_, ?_, ?_⟩
    · rw [held_plug, held_branch, top_branch]
      refine ⟨habove₄.congr fun q hq => ?_, ?_, hleft₅.congr fun q hq => ?_, hR₆⟩
      · rw [hsame₆ q fun hqR => hRabove q hqR q hq rfl,
          hsame₅ q fun hql => hlrest q hql q (Or.inr hq) rfl]
      · rw [hx₆]
        simp [LinkedNode.withParent, LinkedNode.withChild, LinkedNode.sided, hitem]
      · exact hsame₆ q fun hqR => hlrest q hq q (Or.inl hqR) rfl
    · refine (ptrs_place_perm.cons null).nodup_iff.mpr ?_
      rw [List.append_assoc]
      exact hnodup'.sublist ((List.sublist_cons_self _ _).cons_cons x.ptr |>.cons_cons null)
    · rw [hroot₆, hroot₅, hroot₄, hroot₃, hroot₂, top_plug, top_branch]
  refine ensures_colorOf he₆ ((ensures_setColor hstands (itemColor e)).imp ?_)
  rintro _ t ⟨ht, hkeepst⟩
  exact ⟨ht, hkeeps.trans hkeepst⟩

end Steps

section Finding

/-- The way down to one side ends at the outermost node. -/
theorem ensures_outermost {turns : Nat} (hn : s.null = null)
    (h : Held s.nodes null below tree) (hnull : null ∉ ptrs tree) (hne : tree ≠ .leaf)
    (hturns : tree.levels ≤ turns) :
    Ensures (outermost side turns (top null tree)) s
      (fun r t => t = s ∧ ∃ path e far, tree = plug path (.branch side .leaf e far) ∧
        r = e.ptr ∧ ∀ frame ∈ path, frame.side = side) E := by
  induction turns generalizing tree below with
  | zero =>
      cases tree with
      | leaf => exact absurd rfl hne
      | node left e right => cases hturns
  | succ turns ih =>
      cases tree with
      | leaf => exact absurd rfl hne
      | node left e right =>
          obtain ⟨near, far, heq⟩ := exists_branch side left right e
          rw [levels_node] at hturns
          have hnearTurns : near.levels ≤ turns := by
            cases side <;> (rw [branch] at heq; cases heq; omega)
          rw [heq] at h hnull ⊢
          obtain ⟨he, hnear, _⟩ := held_branch.mp h
          rw [mem_ptrs_branch, not_or, not_or] at hnull
          rw [top_branch, outermost, ensures_bind]
          refine ensures_child he LinkedNode.child_sided ?_
          rw [ensures_bind, ensures_getNull, hn, ensures_ite, top_eq_null_iff hnull.2.1]
          refine ⟨?_, fun hfull => ?_⟩
          · rintro rfl
            exact ⟨rfl, [], e, far, rfl, rfl, fun _ hframe => absurd hframe List.not_mem_nil⟩
          · rw [ensures_bind]
            refine ensures_child he LinkedNode.child_sided ?_
            refine (ih hnear hnull.2.1 hfull hnearTurns).imp ?_
            rintro r t ⟨rfl, path, e', far', rfl, rfl, hsides⟩
            refine ⟨rfl, path ++ [.toward side e far], e', far', ?_, rfl, fun frame hframe => ?_⟩
            · rw [plug_append, plug, plug, Frame.fill_toward]
            · rcases List.mem_append.mp hframe with hframe | hframe
              · exact hsides frame hframe
              · rw [List.mem_singleton.mp hframe, Frame.side_toward]

/-- The node itself leaves its position when a child is missing, and else the least node
behind it does, which has no left child. -/
theorem ensures_findDeleted (hn : s.null = null)
    (h : Held s.nodes null below (.node left e right))
    (hnodup : (null :: ptrs (.node left e right)).Nodup) :
    Ensures (findDeleted e.ptr) s
      (fun r t => t = s ∧
        ((∃ side F, SearchTree.node left e right = .branch side F e .leaf ∧
            r = (e.ptr, top null F)) ∨
          ∃ path x F, right = plug path (.branch .left .leaf x F) ∧ r = (x.ptr, top null F) ∧
            ∀ frame ∈ path, frame.side = .left)) E := by
  obtain ⟨he, hleft, hright⟩ := h
  obtain ⟨hnull, hptrs⟩ := List.nodup_cons.mp hnodup
  rw [mem_ptrs_node, not_or, not_or] at hnull
  have hrightNodup := (List.nodup_append.mp (List.nodup_cons.mp
    (ptrs_node_perm.nodup_iff.mp hptrs)).2).2.1
  rw [findDeleted, ensures_bind, ensures_getNull, hn, ensures_bind]
  refine ensures_child he rfl ?_
  rw [ensures_ite, top_eq_null_iff hnull.1]
  refine ⟨?_, fun hleftNe => ?_⟩
  · rintro rfl
    rw [ensures_bind]
    refine ensures_child he rfl ?_
    exact ⟨rfl, Or.inl ⟨.right, right, rfl, rfl⟩⟩
  rw [ensures_bind]
  refine ensures_child he rfl ?_
  rw [ensures_ite, top_eq_null_iff hnull.2.2]
  refine ⟨?_, fun hrightNe => ?_⟩
  · rintro rfl
    rw [ensures_bind]
    refine ensures_child he rfl ?_
    exact ⟨rfl, Or.inl ⟨.left, left, rfl, rfl⟩⟩
  rw [ensures_bind]
  refine ensures_child he rfl ?_
  rw [ensures_bind, utilRbsubtreeMin, ensures_bind, ensures_getNull, hn, if_neg, ensures_bind,
    ensures_maxTurns, ensures_bind]
  · refine (ensures_outermost hn hright hnull.2.2 hrightNe
      ((hright.levels_le hrightNodup).trans (Nat.le_succ _))).imp ?_
    rintro r t ⟨rfl, path, x, F, heq, rfl, hsides⟩
    have hx : t.nodes.find? x.ptr = some (.sided .left x.item (parentOf (some e.ptr) path)
        (some null) (some (top null F))) := by
      rw [heq] at hright
      exact (held_branch.mp (held_plug.mp hright).2).1
    rw [ensures_pure, ensures_bind]
    refine ensures_follow rfl ?_
    rw [ensures_bind]
    refine ensures_child hx rfl ?_
    rw [ensures_ite]
    refine ⟨fun hne => absurd rfl hne, fun _ => ?_⟩
    rw [ensures_bind]
    refine ensures_child hx rfl ?_
    exact ⟨rfl, Or.inr ⟨path, x, F, heq, rfl, hsides⟩⟩
  · rw [top_eq_null_iff hnull.2.2]
    exact hrightNe

end Finding

section Lists

/-- One item is taken out of a list. -/
def Without (a : Plain α) (l l' : List (Plain α)) : Prop :=
  ∃ l₁ l₂, l = l₁ ++ a :: l₂ ∧ l' = l₁ ++ l₂

theorem Without.plug {a : Plain α} (h : Without a (plains tree) (plains tree')) :
    Without a (plains (plug above tree)) (plains (SearchTree.plug above tree')) := by
  obtain ⟨l₁, l₂, htree, htree'⟩ := h
  rw [plains] at htree htree'
  refine ⟨(before above).map plain ++ l₁, l₂ ++ (after above).map plain, ?_, ?_⟩
  · rw [plains, toList_plug, List.map_append, List.map_append, htree]
    simp
  · rw [plains, toList_plug, List.map_append, List.map_append, htree']
    simp

theorem without_node (left right : Tree α) (e : Placed (RbItem α)) :
    Without (plain e) (plains (.node left e right)) (plains left ++ plains right) :=
  ⟨plains left, plains right, plains_node left right e, rfl⟩

theorem without_branch (side : Side) (F : Tree α) (e : Placed (RbItem α)) :
    Without (plain e) (plains (.branch side F e .leaf)) (plains F) := by
  cases side with
  | left => exact ⟨plains F, [], plains_node _ _ _, (List.append_nil _).symm⟩
  | right => exact ⟨[], plains F, plains_node _ _ _, rfl⟩

/-- On the way down to the left, the last node is the first one of all. -/
theorem plains_leftmost (hsides : ∀ frame ∈ path, frame.side = .left) (x : Placed (RbItem α))
    (F : Tree α) :
    plains (plug path (.branch .left .leaf x F)) = plain x :: plains (plug path F) := by
  have hbefore : before path = [] := by
    induction path with
    | nil => rfl
    | cons frame path ih =>
        have hframe := hsides frame List.mem_cons_self
        have hrest := ih fun frame' hmem => hsides frame' (List.mem_cons_of_mem _ hmem)
        cases frame with
        | wentLeft item right => simp [before, hrest]
        | wentRight left item => cases hframe
  rw [plains, plains, toList_plug, toList_plug, hbefore]
  simp [branch]

end Lists

section Deleting

theorem Balanced.withItem (h : Balanced itemColor (.node left e right) color n)
    (hx : itemColor x = itemColor e) : Balanced itemColor (.node left x right) color n := by
  cases h with
  | red he hleft hright => exact .red (hx.trans he) hleft hright
  | black he hleft hright => exact .black (hx.trans he) hleft hright

/-- The pointers of a node outside the tree are cleared. -/
theorem ensures_rbtClearNode (h : Stands null s tree rootParent) (hp : (s.nodes.find? p).isSome)
    (hnew : p ∉ ptrs tree) (hne : p ≠ null) :
    Ensures (rbtClearNode p) s
      (fun _ t => Stands null t tree rootParent ∧ Keeps s t ∧
        t.nodes.find? p = (s.nodes.find? p).map fun node => ⟨node.item, none, none, none⟩) E := by
  obtain ⟨node, hnode⟩ := Option.isSome_iff_exists.mp hp
  refine ensures_write hnode (h.null_eq ▸ hne) rfl fun t hkeeps hroot hfind => ?_
  refine ⟨⟨hkeeps.null_eq.trans h.null_eq, h.held.congr fun q hq => ?_, h.nodup,
    hroot.trans h.root_eq⟩, hkeeps, ?_⟩
  · rw [hfind, if_neg]
    rintro rfl
    exact hnew hq
  · rw [hfind, if_pos rfl, hnode]
    rfl

/-- The fix-up where a node has left its position, if a black one is missing. -/
theorem ensures_restore (hs : SentinelBlack null s) (h : Stands null s (plug above F) rootParent)
    (hbalanced : Balanced itemColor (plug above (.branch side F x .leaf)) .black n)
    (hmissing : ∃ frame rest, above = frame :: rest ∧ KnowsParent null s F frame.item.ptr) :
    Ensures (do if itemColor x = .black then rbtreeDeleteFixup (← maxTurns) (top null F)) s
      (fun _ t => Fixed null s (plug above F) rootParent t) E := by
  obtain ⟨d, c, m, habove, hx, hfits⟩ := exists_around hbalanced
  rw [ensures_ite]
  refine ⟨fun hblack => ?_, fun hred => ?_⟩
  · rw [ensures_bind, ensures_maxTurns]
    cases c with
    | red => exact absurd (hblack.symm.trans hx.of_branch_red.1) nofun
    | black =>
        obtain ⟨m, _, _, rfl, _, hF, _⟩ := hx.of_branch_black
        refine ensures_rbtreeDeleteFixup hs h hF habove (fun _ => hmissing) ?_
        have hlevels := h.held.levels_le (List.nodup_cons.mp h.nodup).2
        have hpath := levels_plug above F
        omega
  · cases c with
    | black =>
        obtain ⟨_, _, _, _, hblack, _⟩ := hx.of_branch_black
        exact absurd hblack hred
    | red =>
        obtain ⟨_, hF, _⟩ := hx.of_branch_red
        obtain ⟨k, hall⟩ := habove.plug hF (fits_black _ _)
        exact ⟨_, h, ⟨k, hall⟩, rfl, Keeps.refl s⟩

/-- What a deletion makes of a tree. The parent of the root stays what it is, unless the
root is deleted that had one child only. -/
def Removed (null : Nat) (s : UtilRbtree α) (tree : Tree α) (e : Placed (RbItem α))
    (rootParent : Option Nat) (t : UtilRbtree α) : Prop :=
  ∃ tree' rootParent', Stands null t tree' rootParent' ∧
    (∃ n, Balanced itemColor tree' .black n) ∧ Without (plain e) (plains tree) (plains tree') ∧
    Spares { s with size := s.size - 1 } t ∧
    (rootParent' = rootParent ∨ s.root = e.ptr ∧ tree.size = 2 ∧ rootParent' = some e.ptr)

/-- The root is deleted, and its only child comes up. -/
theorem ensures_deleteRoot (hs : SentinelBlack null s)
    (h : Stands null s (.branch side F e .leaf) rootParent)
    (hbalanced : Balanced itemColor (.branch side F e .leaf) .black n) :
    Ensures (do
        setRoot (top null F)
        setColor (top null F) .black
        rbtClearNode e.ptr) s
      (fun _ t => ∃ tree' rootParent', Stands null t tree' rootParent' ∧
        (∃ n, Balanced itemColor tree' .black n) ∧ plains tree' = plains F ∧ Spares s t ∧
        (rootParent' = rootParent ∨ F.size = 1 ∧ rootParent' = some e.ptr)) E := by
  obtain ⟨m, c, _, rfl, _, hF, hleaf⟩ := hbalanced.of_branch_black
  obtain ⟨he, hFheld, _⟩ := held_branch.mp h.held
  have hplace : Stands null s (plug [] (.branch side F e .leaf)) rootParent := h
  have hdistinct := hplace.nodup_place
  simp only [List.nodup_cons, List.mem_cons, List.mem_append, not_or] at hdistinct
  cases hleaf
  rw [ensures_bind, ensures_setRoot, ensures_bind]
  cases F with
  | leaf =>
      obtain ⟨sentinel, hfind, hblack⟩ := hs
      refine ensures_update hfind fun nodes hnext hwrite => ?_
      have hspares : Spares { s with root := null } { s with root := null, nodes := nodes } :=
        Spares.write hfind hnext hwrite rfl hblack.symm
      have hstands : Stands null { s with root := null, nodes := nodes } .leaf rootParent :=
        ⟨h.null_eq, trivial, List.nodup_singleton null, rfl⟩
      refine (ensures_rbtClearNode hstands ?_ List.not_mem_nil (Ne.symm hdistinct.1.1)).imp ?_
      · rw [hspares.live, he]
        rfl
      · rintro _ t ⟨ht, hkeeps, _⟩
        exact ⟨.leaf, rootParent, ht, ⟨0, .leaf⟩, rfl,
          (Keeps.setRoot s null).spares.trans (hspares.trans hkeeps.spares), Or.inl rfl⟩
  | node left f right =>
      have hstands : Stands null { s with root := f.ptr } (.node left f right) (some e.ptr) :=
        ⟨h.null_eq, hFheld, List.nodup_cons.mpr ⟨hdistinct.1.2.1.1, (List.nodup_append.mp
          (List.nodup_append.mp hdistinct.2.2).1).1⟩, rfl⟩
      have hchild : Stands null { s with root := f.ptr } (plug [] (.branch .left left f right))
          (some e.ptr) := hstands
      refine (ensures_setColor hchild .black).imp ?_
      rintro _ t₁ ⟨h₁, hkeeps₁⟩
      have hnew : e.ptr ∉ ptrs (.node left (recolor .black f) right) := by
        intro hmem
        rw [mem_ptrs_node, ptr_recolor, ← mem_ptrs_node] at hmem
        exact hdistinct.2.1.1.1 hmem
      refine (ensures_rbtClearNode h₁ ?_ hnew (Ne.symm hdistinct.1.1)).imp ?_
      · rw [hkeeps₁.live, he]
        rfl
      · rintro _ t ⟨ht, hkeeps, _⟩
        cases hF with
        | red _ hleft hright =>
            cases hleft
            cases hright
            exact ⟨_, _, ht, ⟨1, .black (itemColor_recolor _ _) .leaf .leaf⟩,
              plains_branch_congr .left rfl (plain_recolor _ _) rfl,
              (Keeps.setRoot s f.ptr).spares.trans (hkeeps₁.trans hkeeps).spares,
              Or.inr ⟨rfl, rfl⟩⟩

/-- The node leaves its own position below another one. -/
theorem ensures_deleteSelf {frame : Frame (Placed (RbItem α))} (hs : SentinelBlack null s)
    (h : Stands null s (plug (frame :: above) (.branch side F e .leaf)) rootParent)
    (hbalanced : Balanced itemColor (plug (frame :: above) (.branch side F e .leaf)) .black n) :
    Ensures (do
        let color ← colorOf e.ptr
        detach e.ptr e.ptr (top null F)
        if e.ptr ≠ e.ptr then takePlace e.ptr e.ptr
        rbtClearNode e.ptr
        if color = .black then rbtreeDeleteFixup (← maxTurns) (top null F)) s
      (fun _ t => ∃ tree', Stands null t tree' rootParent ∧
        (∃ n, Balanced itemColor tree' .black n) ∧
        plains tree' = plains (plug (frame :: above) F) ∧ Spares s t) E := by
  obtain ⟨habove, hbranch⟩ := held_plug.mp h.held
  obtain ⟨he, hF, _⟩ := held_branch.mp hbranch
  rw [top_branch] at habove
  have hnodup := h.nodup_place
  rw [ptrs_leaf, List.append_nil] at hnodup
  have hdistinct := hnodup
  simp only [List.nodup_cons, List.nodup_append, List.mem_cons, List.mem_append,
    not_or] at hdistinct
  obtain ⟨⟨hne, _, _⟩, ⟨hpF, hpabove⟩, _⟩ := hdistinct
  have hframe : frame.item.ptr ≠ e.ptr := by
    intro heq
    refine hpabove ?_
    rw [← heq]
    exact List.mem_cons_self
  rw [ensures_bind]
  refine ensures_colorOf he ?_
  rw [LinkedNode.item_sided, ensures_bind]
  refine (ensures_detach e.ptr h.null_eq hs habove he LinkedNode.parent_sided hF hnodup
    (if_neg hframe).symm).imp ?_
  rintro _ t₁ ⟨habove₁, hF₁, hknows₁, hroot₁, he₁, hspares₁⟩
  rw [if_neg (not_not.mpr rfl), ensures_bind]
  have hperm : (null :: e.ptr :: (ptrs F ++ ptrsAbove (frame :: above))).Perm
      (e.ptr :: null :: ptrs (plug (frame :: above) F)) :=
    ((ptrs_plug_perm.symm.cons e.ptr).cons null).trans (.swap _ _ _)
  obtain ⟨hnew, hrest⟩ := List.nodup_cons.mp (hperm.nodup_iff.mp hnodup)
  have hstands₁ : Stands null t₁ (plug (frame :: above) F) rootParent := by
    refine ⟨hspares₁.null_eq.trans h.null_eq, held_plug.mpr ⟨habove₁, hF₁⟩, hrest, ?_⟩
    rw [hroot₁, h.root_eq, top_plug, top_plug]
    rfl
  have hlive : (t₁.nodes.find? e.ptr).isSome := by
    rw [he₁, he]
    rfl
  refine (ensures_rbtClearNode hstands₁ hlive (fun hmem => hnew (List.mem_cons_of_mem _ hmem))
    (Ne.symm hne)).imp ?_
  rintro _ t₂ ⟨h₂, hkeeps₂, _⟩
  have hs₁ : SentinelBlack null t₁ := by
    have hblack := hspares₁.black
    rw [h.null_eq] at hblack
    exact hblack hs
  have hknows₂ := hknows₁.keeps hstands₁.null_eq hkeeps₂
  refine (ensures_restore (hs₁.keeps hstands₁.null_eq hkeeps₂) h₂ hbalanced
    ⟨frame, above, rfl, hknows₂⟩).imp ?_
  rintro _ t ⟨tree', ht, hblack, hplains, hkeeps⟩
  exact ⟨tree', ht, hblack, hplains, hspares₁.trans (hkeeps₂.trans hkeeps).spares⟩

/-- The least node behind the deleted one leaves its position and takes the place. -/
theorem ensures_deleteLeast (hs : SentinelBlack null s)
    (hright : right = plug path (.branch .left .leaf x F))
    (hsides : ∀ frame ∈ path, frame.side = .left)
    (h : Stands null s (plug above (.node left e right)) rootParent)
    (hbalanced : Balanced itemColor (plug above (.node left e right)) .black n) :
    Ensures (do
        let color ← colorOf x.ptr
        detach e.ptr x.ptr (top null F)
        if x.ptr ≠ e.ptr then takePlace x.ptr e.ptr
        rbtClearNode e.ptr
        if color = .black then rbtreeDeleteFixup (← maxTurns) (top null F)) s
      (fun _ t => ∃ tree', Stands null t tree' rootParent ∧
        (∃ n, Balanced itemColor tree' .black n) ∧
        Without (plain e) (plains (plug above (.node left e right))) (plains tree') ∧
        Spares s t) E := by
  have hposition (e' : Placed (RbItem α)) : plug above (.node left e' right) =
      plug (path ++ .wentRight left e' :: above) (.branch .right F x .leaf) := by
    rw [plug_append, hright]
    rfl
  have hvacant (e' : Placed (RbItem α)) : plug above (.node left e' (plug path F)) =
      plug (path ++ .wentRight left e' :: above) F := by
    rw [plug_append]
    rfl
  have hplains : plains right = plain x :: plains (plug path F) := by
    rw [hright, plains_leftmost hsides]
  -- the pointers are all different
  have hnodes : Stands null s (plug above (.branch .left left e right)) rootParent := h
  have hnodup := hnodes.nodup_place
  have hptrs : ptrs right = x.ptr :: ptrs (plug path F) := by
    rw [ptrs_eq, ptrs_eq, hplains]
    rfl
  rw [hptrs] at hnodup
  have hall : (null :: x.ptr :: e.ptr ::
      (ptrs left ++ (ptrs (plug path F) ++ ptrsAbove above))).Nodup := by
    refine (List.Perm.cons null ?_).nodup_iff.mp hnodup
    rw [List.append_assoc, List.cons_append]
    exact (List.perm_middle.cons e.ptr).trans (.swap _ _ _)
  have hdistinct := hall
  simp only [List.nodup_cons, List.mem_cons, List.mem_append, not_or] at hdistinct
  obtain ⟨⟨hnx, hne, _⟩, ⟨hxe, hxl, hxR, hxabove⟩, ⟨hel, heR, heabove⟩, _⟩ := hdistinct
  -- the least node at its position
  have hheld := h.held
  have hstands := h
  rw [hposition e] at hstands
  obtain ⟨frame, rest, hcons⟩ : ∃ frame rest, path ++ .wentRight left e :: above = frame :: rest :=
    List.exists_cons_of_ne_nil (by simp)
  obtain ⟨habove, hbranch⟩ := held_plug.mp hstands.held
  obtain ⟨hx, hF, _⟩ := held_branch.mp hbranch
  rw [top_branch] at habove
  have hplace := hstands.nodup_place
  rw [ptrs_leaf, List.append_nil] at hplace
  rw [hcons] at habove hx hplace
  rw [ensures_bind]
  refine ensures_colorOf hx ?_
  rw [LinkedNode.item_sided, ensures_bind]
  refine (ensures_detach e.ptr hstands.null_eq hs habove hx LinkedNode.parent_sided hF hplace
    rfl).imp ?_
  rintro _ t₁ ⟨habove₁, hF₁, hknows₁, hroot₁, hx₁, hspares₁⟩
  rw [← hcons] at habove₁
  obtain ⟨hpath₁, hnode₁⟩ := heldAbove_append.mp habove₁
  clear habove₁
  have he₁ : t₁.nodes.find? e.ptr = some ⟨e.item, parentOf rootParent above,
      some (top null left), some (top null (plug path F))⟩ := hnode₁.1
  have hleft₁ : Held t₁.nodes null (some e.ptr) left := hnode₁.2.1
  have habove₁ : HeldAbove t₁.nodes null rootParent above e.ptr := hnode₁.2.2
  -- what is left behind the node
  obtain ⟨below, hR₁⟩ : ∃ below, Held t₁.nodes null below (plug path F) := by
    cases path with
    | nil => exact ⟨_, hF₁⟩
    | cons frame' path =>
        obtain ⟨rfl, _⟩ := List.cons.inj hcons
        have hframe : frame'.item.ptr ≠ e.ptr := by
          rintro heq
          refine heR (ptrs_plug_perm.mem_iff.mpr (List.mem_append_right _ ?_))
          rw [← heq]
          exact List.mem_cons_self
        rw [if_neg hframe] at hF₁
        exact ⟨some e.ptr, held_plug.mpr ⟨hpath₁, hF₁⟩⟩
  have hn₁ : t₁.null = null := hspares₁.null_eq.trans h.null_eq
  have htop₁ : t₁.root = topAbove above e.ptr := by
    rw [hroot₁, h.root_eq, top_plug]
    rfl
  have hs₁ : SentinelBlack null t₁ := by
    have hblack := hspares₁.black
    rw [h.null_eq] at hblack
    exact hblack hs
  rw [if_pos hxe, ensures_bind]
  refine (ensures_takePlace hn₁ habove₁ htop₁ he₁ hleft₁ hR₁ (hx₁.trans hx)
    LinkedNode.item_sided hall).imp ?_
  rintro _ t₂ ⟨h₂, hkeeps₂⟩
  have hlive : (t₂.nodes.find? e.ptr).isSome := by
    rw [hkeeps₂.live, he₁]
    rfl
  have hnew : e.ptr ∉ ptrs (plug above (.node left (recolor (itemColor e) x) (plug path F))) := by
    rw [ptrs_plug_perm.mem_iff, List.mem_append, mem_ptrs_node]
    rintro ((hmem | heq | hmem) | hmem)
    · exact hel hmem
    · exact hxe heq.symm
    · exact heR hmem
    · exact heabove hmem
  rw [ensures_bind]
  refine (ensures_rbtClearNode h₂ hlive hnew (Ne.symm hne)).imp ?_
  rintro _ t₃ ⟨h₃, hkeeps₃, _⟩
  have hkeeps₂₃ := hkeeps₂.trans hkeeps₃
  -- the missing black node
  have hcolors : ∃ m, Balanced itemColor (plug (path ++ .wentRight left (recolor (itemColor e) x) ::
      above) (.branch .right F x .leaf)) .black m := by
    obtain ⟨d, c, m, haround, hnode, hfits⟩ := exists_around hbalanced
    rw [← hposition]
    exact haround.plug (Balanced.withItem hnode rfl) hfits
  obtain ⟨m, hcolors⟩ := hcolors
  rw [hvacant] at h₃
  have hmissing : ∃ frame' rest', path ++ .wentRight left (recolor (itemColor e) x) :: above =
      frame' :: rest' ∧ KnowsParent null t₃ F frame'.item.ptr := by
    cases path with
    | nil =>
        obtain ⟨rfl, _⟩ := List.cons.inj hcons
        rw [if_pos (show (Frame.wentRight left e).item.ptr = e.ptr from rfl)] at hknows₁
        exact ⟨_, _, rfl, hknows₁.keeps hn₁ hkeeps₂₃⟩
    | cons frame' path =>
        obtain ⟨rfl, _⟩ := List.cons.inj hcons
        have hframe : frame'.item.ptr ≠ e.ptr := by
          rintro heq
          refine heR (ptrs_plug_perm.mem_iff.mpr (List.mem_append_right _ ?_))
          rw [← heq]
          exact List.mem_cons_self
        rw [if_neg hframe] at hknows₁
        exact ⟨_, _, rfl, hknows₁.keeps hn₁ hkeeps₂₃⟩
  refine (ensures_restore (hs₁.keeps hn₁ hkeeps₂₃) h₃ hcolors hmissing).imp ?_
  rintro _ t ⟨tree', ht, hblack, hsame, hkeeps⟩
  refine ⟨tree', ht, hblack, ?_, hspares₁.trans (hkeeps₂₃.trans hkeeps).spares⟩
  rw [hsame, ← hvacant]
  refine Without.plug ?_
  have hwithout := without_node left right e
  rw [hplains] at hwithout
  rw [plains_node left (plug path F)]
  exact hwithout

/-- Deleting a node of the tree. -/
theorem ensures_utilRbtreeDelete (hs : SentinelBlack null s)
    (h : Stands null s (plug above (.node left e right)) rootParent)
    (hbalanced : Balanced itemColor (plug above (.node left e right)) .black n) :
    Ensures (utilRbtreeDelete e.ptr) s
      (fun _ t => Removed null s (plug above (.node left e right)) e rootParent t) E := by
  have hplace : Stands null s (plug above (.branch .left left e right)) rootParent := h
  have hheld := (held_plug.mp h.held).2
  have hnodup : (null :: ptrs (.node left e right)).Nodup :=
    ((ptrs_plug_perm.cons null).nodup_iff.mp h.nodup).sublist
      ((List.sublist_append_left _ _).cons_cons null)
  rw [utilRbtreeDelete, ensures_bind, ensures_getNull, ensures_ite]
  refine ⟨fun heq => absurd heq hplace.ptr_ne_null, fun _ => ?_⟩
  rw [ensures_bind, ensures_modify, ensures_bind]
  -- the calls that follow do not look at the size
  generalize hsmaller : { s with size := s.size - 1 } = s₁
  have hs₁ : SentinelBlack null s₁ := hsmaller ▸ hs
  have h₁ : Stands null s₁ (plug above (.node left e right)) rootParent :=
    hsmaller ▸ ⟨h.null_eq, h.held, h.nodup, h.root_eq⟩
  have hroot₁ : s.root = s₁.root := hsmaller ▸ rfl
  have hheld₁ : Held s₁.nodes null (parentOf rootParent above) (.node left e right) :=
    hsmaller ▸ hheld
  have hnotRoot (frame : Frame (Placed (RbItem α))) (rest : List (Frame (Placed (RbItem α))))
      (T : Tree α) (h : Stands null s₁ (plug (frame :: rest) T) rootParent) :
      top null T ≠ s₁.root := by
    obtain ⟨side, g, sibling, rfl⟩ := frame.exists_toward
    rw [← plug_near side] at h
    exact h.top_ne_root
  refine (ensures_findDeleted h₁.null_eq hheld₁ hnodup).imp ?_
  rintro _ t ⟨rfl, ⟨side, F, heq, rfl⟩ | ⟨path, x, F, hright, rfl, hsides⟩⟩
  · have hwithout : Without (plain e) (plains (.node left e right)) (plains F) :=
      heq ▸ without_branch side F e
    rw [ensures_bind, ensures_getRoot, ensures_ite]
    refine ⟨fun hroot => ?_, fun hne => ?_⟩
    · cases above with
      | nil =>
          rw [plug, heq] at h₁ hbalanced
          refine (ensures_deleteRoot hs₁ h₁ hbalanced).imp ?_
          rintro _ u ⟨tree', rootParent', hu, hblack, hsame, hspares, hparent⟩
          refine ⟨tree', rootParent', hu, hblack, ?_, hsmaller ▸ hspares, ?_⟩
          · rw [hsame]
            exact hwithout
          · rcases hparent with hparent | ⟨hsize, hparent⟩
            · exact Or.inl hparent
            · refine Or.inr ⟨hroot₁.trans hroot.symm, ?_, hparent⟩
              rw [plug, heq]
              cases side <;> simp [branch, hsize]
      | cons frame rest => exact absurd hroot (hnotRoot frame rest _ h₁)
    · cases above with
      | nil => exact absurd h₁.root_eq.symm hne
      | cons frame rest =>
          rw [heq] at h₁ hbalanced
          refine (ensures_deleteSelf hs₁ h₁ hbalanced).imp ?_
          rintro _ u ⟨tree', hu, hblack, hsame, hspares⟩
          refine ⟨tree', rootParent, hu, hblack, ?_, hsmaller ▸ hspares, Or.inl rfl⟩
          rw [hsame]
          exact hwithout.plug
  · have hposition := h₁
    rw [show plug above (.node left e right) =
      plug (path ++ .wentRight left e :: above) (.branch .left .leaf x F) by
        rw [plug_append, hright]; rfl] at hposition
    obtain ⟨frame, rest, hcons⟩ : ∃ frame rest,
        path ++ .wentRight left e :: above = frame :: rest :=
      List.exists_cons_of_ne_nil (by simp)
    rw [hcons] at hposition
    have hne : x.ptr ≠ t.root := hnotRoot frame rest _ hposition
    rw [ensures_bind, ensures_getRoot, if_neg hne]
    refine (ensures_deleteLeast hs₁ hright hsides h₁ hbalanced).imp ?_
    rintro _ u ⟨tree', hu, hblack, hwithout, hspares⟩
    exact ⟨tree', rootParent, hu, hblack, hwithout, hsmaller ▸ hspares, Or.inl rfl⟩

end Deleting

end FastDCS.RbTrees
