import FastDCS.RbTrees

/-!
What the single steps of `util_rbtree.c` do to a tree that stands in the memory: a
colour at a place, a link at a place, a rotation.
-/

namespace FastDCS.RbTrees

open FastDCS.Handlers
open FastDCS.Heaps
open FastDCS.SearchTrees
open FastDCS.SearchTrees.SearchTree
open FastDCS.LinkedTrees
open FastDCS.RedBlackTrees

variable {α : Type} {s t u : UtilRbtree α} {E : Fault → Prop} {p q : Nat}
  {node : LinkedNode (RbItem α)}

section Fields

theorem ensures_follow {link : Option Nat} {Q : Nat → UtilRbtree α → Prop} (h : link = some p)
    (hQ : Q p s) : Ensures (follow link) s Q E := by
  rw [h]
  exact hQ

theorem ensures_nodeAt {Q : LinkedNode (RbItem α) → UtilRbtree α → Prop}
    (h : s.nodes.find? p = some node) (hQ : Q node s) : Ensures (nodeAt p) s Q E := by
  simp only [nodeAt, ensures_bind, ensures_get, h]
  exact hQ

theorem ensures_update {f : LinkedNode (RbItem α) → LinkedNode (RbItem α)}
    {Q : PUnit → UtilRbtree α → Prop} (h : s.nodes.find? p = some node)
    (hQ : ∀ nodes : Heap (LinkedNode (RbItem α)), nodes.next = s.nodes.next →
      (∀ q, nodes.find? q = if q = p then some (f node) else s.nodes.find? q) →
      Q ⟨⟩ { s with nodes := nodes }) : Ensures (update p f) s Q E := by
  obtain ⟨nodes, hchange, hnext, hfind⟩ := exists_change h f
  simp only [update, ensures_bind, ensures_get, hchange]
  exact hQ nodes hnext hfind

theorem ensures_parent {Q : Nat → UtilRbtree α → Prop} (h : s.nodes.find? p = some node)
    (hq : node.parent = some q) (hQ : Q q s) : Ensures (parent p) s Q E := by
  rw [parent, ensures_bind]
  exact ensures_nodeAt h (ensures_follow hq hQ)

theorem ensures_child {side : Side} {Q : Nat → UtilRbtree α → Prop}
    (h : s.nodes.find? p = some node) (hq : node.child side = some q) (hQ : Q q s) :
    Ensures (child side p) s Q E := by
  rw [child, ensures_bind]
  exact ensures_nodeAt h (ensures_follow hq hQ)

theorem ensures_keyOf {Q : Int → UtilRbtree α → Prop} (h : s.nodes.find? p = some node)
    (hQ : Q node.item.key s) : Ensures (keyOf p) s Q E := by
  rw [keyOf, ensures_bind]
  exact ensures_nodeAt h hQ

theorem ensures_colorOf {Q : Color → UtilRbtree α → Prop} (h : s.nodes.find? p = some node)
    (hQ : Q node.item.color s) : Ensures (colorOf p) s Q E := by
  rw [colorOf, ensures_bind]
  exact ensures_nodeAt h hQ

@[simp] theorem ensures_getNull {Q : Nat → UtilRbtree α → Prop} :
    Ensures getNull s Q E ↔ Q s.null s := Iff.rfl

@[simp] theorem ensures_getRoot {Q : Nat → UtilRbtree α → Prop} :
    Ensures getRoot s Q E ↔ Q s.root s := Iff.rfl

@[simp] theorem ensures_maxTurns {Q : Nat → UtilRbtree α → Prop} :
    Ensures maxTurns s Q E ↔ Q (s.nodes.next + 1) s := Iff.rfl

@[simp] theorem ensures_setRoot {Q : PUnit → UtilRbtree α → Prop} :
    Ensures (setRoot p) s Q E ↔ Q ⟨⟩ { s with root := p } := Iff.rfl

end Fields

abbrev Tree (α : Type) := SearchTree (Placed (RbItem α))

def itemColor (e : Placed (RbItem α)) : Color := e.item.color

def itemKey (e : Placed (RbItem α)) : Int := e.item.key

def recolor (color : Color) (e : Placed (RbItem α)) : Placed (RbItem α) :=
  ⟨e.ptr, { e.item with color := color }⟩

@[simp] theorem ptr_recolor (color : Color) (e : Placed (RbItem α)) :
    (recolor color e).ptr = e.ptr := rfl

@[simp] theorem itemColor_recolor (color : Color) (e : Placed (RbItem α)) :
    itemColor (recolor color e) = color := rfl

/-- The tree is in the memory, with the root below `rootParent`. -/
structure Stands (null : Nat) (s : UtilRbtree α) (tree : Tree α) (rootParent : Option Nat) :
    Prop where
  null_eq : s.null = null
  held : Held s.nodes null rootParent tree
  nodup : (null :: ptrs tree).Nodup
  root_eq : s.root = top null tree

/-- What no function of the tree changes of a node. -/
def label (node : LinkedNode (RbItem α)) : Int × α := (node.item.key, node.item.data)

theorem label_withChild (side : Side) (child : Option Nat) (node : LinkedNode (RbItem α)) :
    label (node.withChild side child) = label node := by
  cases side <;> rfl

/-- What the steps of a fix-up leave alone: no node is made or freed, and the sentinel
stays what it is. -/
structure Keeps (s t : UtilRbtree α) : Prop where
  null_eq : t.null = s.null
  size_eq : t.size = s.size
  next_eq : t.nodes.next = s.nodes.next
  sentinel : t.nodes.find? s.null = s.nodes.find? s.null
  labels : ∀ p, (t.nodes.find? p).map label = (s.nodes.find? p).map label

theorem Keeps.refl (s : UtilRbtree α) : Keeps s s := ⟨rfl, rfl, rfl, rfl, fun _ => rfl⟩

theorem Keeps.trans (hst : Keeps s t) (htu : Keeps t u) : Keeps s u where
  null_eq := htu.null_eq.trans hst.null_eq
  size_eq := htu.size_eq.trans hst.size_eq
  next_eq := htu.next_eq.trans hst.next_eq
  sentinel := by
    have h := htu.sentinel
    rw [hst.null_eq] at h
    exact h.trans hst.sentinel
  labels p := (htu.labels p).trans (hst.labels p)

theorem isSome_of_labels {p : Nat}
    (h : (t.nodes.find? p).map label = (s.nodes.find? p).map label) :
    (t.nodes.find? p).isSome = (s.nodes.find? p).isSome := by
  rw [← Option.isSome_map (f := label), h, Option.isSome_map]

theorem Keeps.live (h : Keeps s t) (p : Nat) :
    (t.nodes.find? p).isSome = (s.nodes.find? p).isSome := isSome_of_labels (h.labels p)

theorem Keeps.write {nodes : Heap (LinkedNode (RbItem α))} {node' : LinkedNode (RbItem α)}
    (h : s.nodes.find? p = some node) (hne : p ≠ s.null) (hnext : nodes.next = s.nodes.next)
    (hfind : ∀ q, nodes.find? q = if q = p then some node' else s.nodes.find? q)
    (hlabel : label node' = label node) (root : Nat) :
    Keeps s { s with nodes := nodes, root := root } where
  null_eq := rfl
  size_eq := rfl
  next_eq := hnext
  sentinel := by rw [hfind, if_neg hne.symm]
  labels q := by
    rw [hfind]
    split_ifs with hq
    · rw [hq, h, Option.map_some, Option.map_some, hlabel]
    · rfl

/-- A write to a node of the tree. -/
theorem ensures_write {f : LinkedNode (RbItem α) → LinkedNode (RbItem α)}
    {Q : PUnit → UtilRbtree α → Prop} (h : s.nodes.find? p = some node) (hne : p ≠ s.null)
    (hlabel : label (f node) = label node)
    (hQ : ∀ t, Keeps s t → t.root = s.root →
      (∀ q, t.nodes.find? q = if q = p then some (f node) else s.nodes.find? q) → Q ⟨⟩ t) :
    Ensures (update p f) s Q E :=
  ensures_update h fun _ hnext hfind => hQ _ (Keeps.write h hne hnext hfind hlabel s.root) rfl hfind

variable {tree tree' near far a b c : Tree α} {above : List (Frame (Placed (RbItem α)))}
  {rootParent : Option Nat} {e x y : Placed (RbItem α)} {side : Side} {color : Color}
  {null old new : Nat}

section Places

theorem plug_near (side : Side) :
    plug above (.branch side near e far) = plug (.toward side e far :: above) near := by
  rw [plug, Frame.fill_toward]

theorem plug_far (side : Side) :
    plug above (.branch side near e far) = plug (.toward side.other e near :: above) far := by
  rw [plug, Frame.fill_toward, branch_other]

/-- The node at a place. -/
theorem Stands.find?_place (h : Stands null s (plug above (.branch side near e far)) rootParent) :
    s.nodes.find? e.ptr = some (.sided side e.item (parentOf rootParent above)
      (some (top null near)) (some (top null far))) :=
  (held_branch.mp (held_plug.mp h.held).2).1

theorem Stands.nodup_place (h : Stands null s (plug above (.branch side near e far)) rootParent) :
    (null :: e.ptr :: ((ptrs near ++ ptrs far) ++ ptrsAbove above)).Nodup :=
  (ptrs_place_perm.cons null).nodup_iff.mp h.nodup

theorem Stands.ptr_ne_null (h : Stands null s (plug above (.branch side near e far)) rootParent) :
    e.ptr ≠ s.null := by
  rw [h.null_eq]
  rintro heq
  exact (List.nodup_cons.mp h.nodup_place).1 (heq ▸ List.mem_cons_self)

/-- The two children of a node are different, if there is one. -/
theorem Stands.top_ne_top (h : Stands null s (plug above (.branch side near e far)) rootParent)
    (hne : near ≠ .leaf) : top null near ≠ top null far := by
  have hplace := h.nodup_place
  simp only [List.nodup_cons, List.nodup_append, List.mem_cons, List.mem_append,
    not_or] at hplace
  rcases top_mem_or null near with hmem | ⟨hleaf, _⟩
  · refine Ne.symm (top_ne (fun hfar => ?_) fun heq => ?_)
    · exact hplace.2.2.1.2.2 _ hmem _ hfar rfl
    · rw [heq] at hmem
      exact hplace.1.2.1.1 hmem
  · exact absurd hleaf hne

/-- What hangs from a node is not the root. -/
theorem Stands.top_ne_root
    (h : Stands null s (plug above (.branch side near e far)) rootParent) :
    top null near ≠ s.root := by
  rw [plug_near] at h
  rw [h.root_eq, top_plug]
  have hroot := topAbove_mem (.toward side e far) above (top null near)
  have hplace := (ptrs_plug_perm.cons null).nodup_iff.mp h.nodup
  rw [List.nodup_cons, List.mem_append, not_or] at hplace
  intro heq
  rw [← heq] at hroot
  rcases top_mem_or null near with hmem | ⟨_, hnull⟩
  · exact (List.nodup_append.mp hplace.2).2.2 _ hmem _ hroot rfl
  · rw [hnull] at hroot
    exact hplace.1.2 hroot

/-- The nodes have been linked to another tree. -/
theorem Stands.relinked (h : Stands null s tree rootParent)
    (hperm : (ptrs tree').Perm (ptrs tree)) (hnull : t.null = null)
    (hheld : Held t.nodes null rootParent tree') (hroot : t.root = top null tree') :
    Stands null t tree' rootParent :=
  ⟨hnull, hheld, (hperm.cons null).nodup_iff.mpr h.nodup, hroot⟩

end Places

/-- Giving a node of the tree another colour. -/
theorem ensures_setColor
    (h : Stands null s (plug above (.branch side near e far)) rootParent) (color : Color) :
    Ensures (setColor e.ptr color) s
      (fun _ t => Stands null t (plug above (.branch side near (recolor color e) far)) rootParent ∧
        Keeps s t) E := by
  refine ensures_update h.find?_place fun nodes hnext hfind => ?_
  obtain ⟨_, hdistinct⟩ := List.nodup_cons.mp h.nodup_place
  replace hdistinct := (List.nodup_cons.mp hdistinct).1
  simp only [List.mem_append] at hdistinct
  obtain ⟨habove, hbranch⟩ := held_plug.mp h.held
  obtain ⟨hitem, hnear, hfar⟩ := held_branch.mp hbranch
  rw [top_branch] at habove
  have hsame : ∀ q, q ≠ e.ptr → nodes.find? q = s.nodes.find? q := fun q hq => by
    rw [hfind, if_neg hq]
  refine ⟨h.relinked ?_ h.null_eq ?_ ?_,
    Keeps.write h.find?_place h.ptr_ne_null hnext hfind rfl _⟩
  · refine ptrs_place_perm.trans ?_
    rw [ptr_recolor]
    exact ptrs_place_perm.symm
  · rw [held_plug, held_branch, top_branch]
    refine ⟨habove.congr fun q hq => hsame q ?_, ?_, hnear.congr fun q hq => hsame q ?_,
      hfar.congr fun q hq => hsame q ?_⟩
    · rintro rfl
      tauto
    · rw [recolor, hfind, if_pos rfl, LinkedNode.withItem_sided, LinkedNode.item_sided]
    · rintro rfl
      tauto
    · rintro rfl
      tauto
  · rw [h.root_eq, top_plug, top_plug, top_branch, top_branch]
    rfl

/-- The child of a node that stands at a place gets another one's pointer. -/
theorem ensures_setChild {frame : Frame (Placed (RbItem α))} (hn : s.null = null)
    (h : HeldAbove s.nodes null rootParent (frame :: above) old)
    (hnodup : (null :: ptrsAbove (frame :: above)).Nodup) (new : Nat) :
    Ensures (setChild frame.side frame.item.ptr new) s
      (fun _ t => HeldAbove t.nodes null rootParent (frame :: above) new ∧ t.root = s.root ∧
        (∀ q, q ≠ frame.item.ptr → t.nodes.find? q = s.nodes.find? q) ∧ Keeps s t) E := by
  obtain ⟨side, e, sibling, rfl⟩ := frame.exists_toward
  rw [ptrsAbove_toward] at hnodup
  simp only [List.nodup_cons, List.mem_cons, List.mem_append, not_or] at hnodup
  obtain ⟨hitem, hsibling, habove⟩ := heldAbove_toward.mp h
  rw [Frame.item_toward, Frame.side_toward]
  refine ensures_write hitem (hn ▸ Ne.symm hnodup.1.1) (label_withChild _ _ _)
    fun t hkeeps hroot hfind => ?_
  have hsame : ∀ q, q ≠ e.ptr → t.nodes.find? q = s.nodes.find? q := fun q hq => by
    rw [hfind, if_neg hq]
  refine ⟨heldAbove_toward.mpr ⟨?_, hsibling.congr fun q hq => hsame q ?_,
    habove.congr fun q hq => hsame q ?_⟩, hroot, hsame, hkeeps⟩
  · rw [hfind, if_pos rfl, LinkedNode.withChild_sided]
  · rintro rfl
    tauto
  · rintro rfl
    tauto

theorem ensures_relink {frame : Frame (Placed (RbItem α))} (hn : s.null = null)
    (h : HeldAbove s.nodes null rootParent (frame :: above) old)
    (hnodup : (null :: old :: ptrsAbove (frame :: above)).Nodup) :
    Ensures (relink frame.item.ptr old new) s
      (fun _ t => HeldAbove t.nodes null rootParent (frame :: above) new ∧ t.root = s.root ∧
        (∀ q, q ≠ frame.item.ptr → t.nodes.find? q = s.nodes.find? q) ∧ Keeps s t) E := by
  obtain ⟨hnull, hnodup⟩ := List.nodup_cons.mp hnodup
  have hplace : (null :: ptrsAbove (frame :: above)).Nodup :=
    List.nodup_cons.mpr ⟨fun hmem => hnull (List.mem_cons_of_mem _ hmem),
      (List.nodup_cons.mp hnodup).2⟩
  have hset := ensures_setChild (E := E) hn h hplace new
  rw [relink, ensures_bind]
  cases frame with
  | wentLeft e right =>
      refine ensures_child h.1 rfl ?_
      rw [if_pos rfl]
      exact hset
  | wentRight left e =>
      refine ensures_child h.1 rfl ?_
      have hold : old ∉ ptrs left := fun hmem => (List.nodup_cons.mp hnodup).1
        (List.mem_cons_of_mem _ (List.mem_append_left _ hmem))
      have hne : top null (Frame.wentRight left e).sibling ≠ old :=
        top_ne hold fun heq => hnull (heq ▸ List.mem_cons_self)
      rw [if_neg hne]
      exact hset

theorem Keeps.setRoot (s : UtilRbtree α) (p : Nat) : Keeps s { s with root := p } :=
  ⟨rfl, rfl, rfl, rfl, fun _ => rfl⟩

/-- Another node gets the place of `old`. -/
theorem ensures_replace (hn : s.null = null)
    (h : HeldAbove s.nodes null rootParent above old)
    (hroot : s.root = topAbove above old) (hold : s.nodes.find? old = some node)
    (hparent : node.parent = parentOf rootParent above)
    (hnodup : (null :: old :: ptrsAbove above).Nodup) (new : Nat) :
    Ensures (replace old new) s
      (fun _ t => HeldAbove t.nodes null rootParent above new ∧ t.root = topAbove above new ∧
        (∀ q, q ∉ ptrsAbove above → t.nodes.find? q = s.nodes.find? q) ∧ Keeps s t) E := by
  rw [replace, ensures_bind, ensures_getRoot, ensures_ite]
  cases above with
  | nil =>
      refine ⟨fun _ => ?_, fun hne => absurd hroot.symm hne⟩
      exact ⟨trivial, rfl, fun _ _ => rfl, Keeps.setRoot s new⟩
  | cons frame above =>
      refine ⟨fun heq => ?_, fun _ => ?_⟩
      · rw [hroot] at heq
        refine absurd ?_ (List.nodup_cons.mp (List.nodup_cons.mp hnodup).2).1
        rw [heq]
        exact topAbove_mem frame above old
      · rw [ensures_bind]
        refine ensures_parent hold hparent ((ensures_relink hn h hnodup).imp ?_)
        rintro _ t ⟨hheld, htop, hsame, hkeeps⟩
        refine ⟨hheld, htop.trans hroot, fun q hq => hsame q ?_, hkeeps⟩
        rintro rfl
        exact hq List.mem_cons_self

/-- A subtree, if there is one, comes below another node. -/
theorem ensures_adopt {below : Option Nat} (hn : s.null = null)
    (h : Held s.nodes null below tree) (hnodup : (null :: ptrs tree).Nodup) (p : Nat) :
    Ensures (if top null tree ≠ null then setParent (top null tree) (some p) else pure ⟨⟩) s
      (fun _ t => Held t.nodes null (some p) tree ∧ t.root = s.root ∧
        (∀ q, q ∉ ptrs tree → t.nodes.find? q = s.nodes.find? q) ∧ Keeps s t) E := by
  obtain ⟨hnull, hnodup⟩ := List.nodup_cons.mp hnodup
  rw [ensures_ite]
  refine ⟨fun hne => ?_, fun heq => ?_⟩
  · cases tree with
    | leaf => exact absurd rfl hne
    | node left e right =>
        refine ensures_update h.1 fun nodes hnext hfind => ?_
        refine ⟨h.reparent hnodup (fun node hnode => ?_) fun q _ hq => ?_, rfl,
          fun q hq => ?_, Keeps.write h.1 (hn ▸ hne) hnext hfind rfl s.root⟩
        · obtain rfl := Option.some.inj (h.1.symm.trans hnode)
          rw [hfind]
          exact if_pos rfl
        · rw [hfind]
          exact if_neg hq
        · rw [hfind, if_neg]
          rintro rfl
          exact hq (mem_ptrs_node.mpr (Or.inr (Or.inl rfl)))
  · rw [ne_eq, not_not, top_eq_null_iff hnull] at heq
    subst heq
    exact ⟨trivial, rfl, fun _ _ => rfl, Keeps.refl s⟩

/-- The nodes around a rotation and their pointers, all of them different. -/
theorem Stands.nodup_rotate
    (h : Stands null s (plug above (.branch side a x (.branch side b y c))) rootParent) :
    (null :: x.ptr :: y.ptr :: (ptrs b ++ (ptrs a ++ (ptrs c ++ ptrsAbove above)))).Nodup := by
  have hperm : (ptrs (plug above (.branch side a x (.branch side b y c)))).Perm
      (x.ptr :: y.ptr :: (ptrs b ++ (ptrs a ++ (ptrs c ++ ptrsAbove above)))) := by
    refine ptrs_place_perm.trans (.cons _ ?_)
    refine ((ptrs_branch_perm.append_left _).append_right _).trans ?_
    rw [List.append_assoc, List.cons_append]
    refine List.perm_middle.trans (.cons _ ?_)
    rw [List.append_assoc, ← List.append_assoc, ← List.append_assoc (ptrs b)]
    exact List.perm_append_comm.append_right _
  exact (hperm.cons null).nodup_iff.mp h.nodup

theorem ensures_rotate
    (h : Stands null s (plug above (.branch side a x (.branch side b y c))) rootParent) :
    Ensures (rotate side x.ptr) s
      (fun _ t => Stands null t (plug above (.branch side (.branch side a x b) y c)) rootParent ∧
        Keeps s t) E := by
  obtain ⟨habove, hbranch⟩ := held_plug.mp h.held
  obtain ⟨hx, ha, hchild⟩ := held_branch.mp hbranch
  obtain ⟨hy, hb, hc⟩ := held_branch.mp hchild
  rw [top_branch] at habove hx
  have hdistinct := h.nodup_rotate
  simp only [List.nodup_cons, List.nodup_append, List.mem_cons, List.mem_append,
    not_or] at hdistinct
  obtain ⟨⟨hnx, hny, hnb, hna, hnc, hnabove⟩, ⟨hxy, hxb, hxa, hxc, hxabove⟩,
    ⟨hyb, hya, hyc, hyabove⟩, hbnodup, ⟨_, ⟨_, habovenodup, hcabove⟩, harest⟩,
    hbrest⟩ := hdistinct
  simp only [rotate, ensures_bind]
  refine ensures_child hx LinkedNode.child_other_sided ?_
  refine ensures_child hy LinkedNode.child_sided ?_
  refine ensures_nodeAt hx ?_
  -- the child comes up
  refine ensures_write hy (h.null_eq ▸ Ne.symm hny) rfl fun s₁ hkeeps₁ hroot₁ hfind₁ => ?_
  have hn₁ : s₁.null = null := hkeeps₁.null_eq.trans h.null_eq
  have habove₁ : HeldAbove s₁.nodes null rootParent above x.ptr := habove.congr fun q hq => by
    rw [hfind₁, if_neg]
    rintro rfl
    exact hyabove hq
  have hx₁ := hfind₁ x.ptr
  rw [if_neg hxy, hx] at hx₁
  have htop₁ : s₁.root = topAbove above x.ptr := by
    rw [hroot₁, h.root_eq, top_plug, top_branch]
  have hplace : (null :: x.ptr :: ptrsAbove above).Nodup := by
    simp only [List.nodup_cons, List.mem_cons, not_or]
    exact ⟨⟨hnx, hnabove⟩, hxabove, habovenodup⟩
  refine (ensures_replace hn₁ habove₁ htop₁ hx₁ LinkedNode.parent_sided hplace y.ptr).imp ?_
  rintro _ s₂ ⟨habove₂, hroot₂, hsame₂, hkeeps₂⟩
  have hx₂ := (hsame₂ x.ptr hxabove).trans hx₁
  have hy₂ := (hsame₂ y.ptr hyabove).trans (hfind₁ y.ptr)
  rw [if_pos rfl, LinkedNode.withParent_sided, LinkedNode.parent_sided] at hy₂
  have hn₂ : s₂.null = null := hkeeps₂.null_eq.trans hn₁
  -- the node comes below it
  refine ensures_write hx₂ (hn₂ ▸ Ne.symm hnx) rfl fun s₃ hkeeps₃ hroot₃ hfind₃ => ?_
  have hn₃ : s₃.null = null := hkeeps₃.null_eq.trans hn₂
  have hy₃ := hfind₃ y.ptr
  rw [if_neg (Ne.symm hxy), hy₂] at hy₃
  refine ensures_write hy₃ (hn₃ ▸ Ne.symm hny) (label_withChild _ _ _)
    fun s₄ hkeeps₄ hroot₄ hfind₄ => ?_
  have hn₄ : s₄.null = null := hkeeps₄.null_eq.trans hn₃
  have hx₄ := hfind₄ x.ptr
  rw [if_neg hxy, hfind₃, if_pos rfl, LinkedNode.withParent_sided] at hx₄
  refine ensures_write hx₄ (hn₄ ▸ Ne.symm hnx) (label_withChild _ _ _)
    fun s₅ hkeeps₅ hroot₅ hfind₅ => ?_
  have hn₅ : s₅.null = null := hkeeps₅.null_eq.trans hn₄
  have hsame₅ : ∀ q, q ≠ x.ptr → q ≠ y.ptr → q ∉ ptrsAbove above →
      s₅.nodes.find? q = s.nodes.find? q := by
    intro q hqx hqy hqabove
    rw [hfind₅, if_neg hqx, hfind₄, if_neg hqy, hfind₃, if_neg hqx, hsame₂ q hqabove, hfind₁,
      if_neg hqy]
  have hb₅ : Held s₅.nodes null (some y.ptr) b := hb.congr fun q hq => by
    refine hsame₅ q ?_ ?_ fun hqabove => hbrest q hq q (Or.inr (Or.inr hqabove)) rfl
    · rintro rfl
      exact hxb hq
    · rintro rfl
      exact hyb hq
  rw [ensures_getNull, hn₅]
  refine (ensures_adopt hn₅ hb₅ (List.nodup_cons.mpr ⟨hnb, hbnodup⟩) x.ptr).imp ?_
  rintro _ t ⟨hbt, hroott, hsamet, hkeepst⟩
  have hsame : ∀ q, q ≠ x.ptr → q ≠ y.ptr → q ∉ ptrsAbove above → q ∉ ptrs b →
      t.nodes.find? q = s.nodes.find? q := fun q hqx hqy hqabove hqb =>
    (hsamet q hqb).trans (hsame₅ q hqx hqy hqabove)
  refine ⟨h.relinked ?_ (hkeepst.null_eq.trans hn₅) ?_ ?_, ?_⟩
  · rw [ptrs, ptrs, toList_plug_congr (toList_rotate side a b c x y)]
  · rw [held_plug, held_branch, held_branch, top_branch, top_branch]
    refine ⟨habove₂.congr fun q hq => ?_, ?_, ⟨?_, ha.congr fun q hq => ?_, hbt⟩,
      hc.congr fun q hq => ?_⟩
    · rw [hsamet q fun hqb => hbrest q hqb q (Or.inr (Or.inr hq)) rfl, hfind₅, if_neg,
        hfind₄, if_neg, hfind₃, if_neg]
      · rintro rfl
        exact hxabove hq
      · rintro rfl
        exact hyabove hq
      · rintro rfl
        exact hxabove hq
    · rw [hsamet y.ptr hyb, hfind₅, if_neg (Ne.symm hxy), hfind₄, if_pos rfl,
        LinkedNode.withChild_sided]
    · rw [hsamet x.ptr hxb, hfind₅, if_pos rfl, LinkedNode.withChild_other_sided]
    · refine hsame q ?_ ?_ (fun hqabove => harest q hq q (Or.inr hqabove) rfl)
        fun hqb => hbrest q hqb q (Or.inl hq) rfl
      · rintro rfl
        exact hxa hq
      · rintro rfl
        exact hya hq
    · refine hsame q ?_ ?_ (fun hqabove => hcabove q hq q hqabove rfl)
        fun hqb => hbrest q hqb q (Or.inr (Or.inl hq)) rfl
      · rintro rfl
        exact hxc hq
      · rintro rfl
        exact hyc hq
  · rw [hroott, hroot₅, hroot₄, hroot₃, hroot₂, top_plug, top_branch]
  · exact (hkeeps₁.trans hkeeps₂).trans
      ((hkeeps₃.trans hkeeps₄).trans (hkeeps₅.trans hkeepst))

end FastDCS.RbTrees
