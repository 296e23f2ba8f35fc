import FastDCS.TreeContexts
import FastDCS.TreeEdits

/-!
How deep an item of a search tree stands, and that taking another one out does not move it down.
-/

namespace FastDCS.SearchTrees

universe u v

namespace SearchTree

variable {α : Type u} {κ : Type v} [LinearOrder κ] (key : α → κ)

/-- How many nodes are above the one with the key. -/
def depth (k : κ) : SearchTree α → Nat
  | leaf => 0
  | node left item right =>
      if k < key item then left.depth k + 1
      else if key item < k then right.depth k + 1
      else 0

variable {key} {k : κ} {left right tree tree' : SearchTree α} {item found x : α}

theorem depth_of_lt (h : k < key item) :
    (node left item right).depth key k = left.depth key k + 1 := by
  rw [depth, if_pos h]

theorem depth_of_gt (h : key item < k) :
    (node left item right).depth key k = right.depth key k + 1 := by
  rw [depth, if_neg h.not_gt, if_pos h]

theorem depth_top : (node left item right).depth key (key item) = 0 := by
  rw [depth, if_neg (lt_irrefl _), if_neg (lt_irrefl _)]

theorem length_path (tree : SearchTree α) (above : List α) :
    (tree.path key k above).length = tree.depth key k + above.length := by
  induction tree generalizing above with
  | leaf => exact (Nat.zero_add _).symm
  | node left item right ihLeft ihRight =>
      rw [path, depth]
      split_ifs
      · rw [ihLeft, List.length_cons]
        omega
      · rw [ihRight, List.length_cons]
        omega
      · exact (Nat.zero_add _).symm

theorem depth_lt_levels (hordered : tree.Ordered key) (hx : x ∈ tree.toList) :
    tree.depth key (key x) < tree.levels := by
  induction tree with
  | leaf => cases hx
  | node left item right ihLeft ihRight =>
      obtain ⟨⟨hleft, hbelow⟩, hright, habove⟩ := ordered_node.mp hordered
      rw [levels_node]
      rcases List.mem_append.mp hx with hmem | hmem
      · rw [depth_of_lt (hbelow x hmem)]
        have hdepth := ihLeft hleft hmem
        omega
      · rcases List.mem_cons.mp hmem with rfl | hmem
        · rw [depth_top]
          exact Nat.succ_pos _
        · rw [depth_of_gt (habove x hmem)]
          have hdepth := ihRight hright hmem
          omega

theorem depth_takeLeast_le (hordered : (node left item right).Ordered key)
    (hx : x ∈ (takeLeast left item right).2.toList) :
    (takeLeast left item right).2.depth key (key x) ≤
      (node left item right).depth key (key x) := by
  induction left generalizing item right with
  | leaf =>
      obtain ⟨_, _, habove⟩ := ordered_node.mp hordered
      rw [depth_of_gt (habove x hx)]
      exact Nat.le_succ _
  | node left least behind ihLeft _ =>
      obtain ⟨⟨hleft, hbelow⟩, _, habove⟩ := ordered_node.mp hordered
      have hlist := toList_takeLeast left least behind
      rw [takeLeast] at hx ⊢
      rcases List.mem_append.mp hx with hmem | hmem
      · have hlt : key x < key item := by
          apply hbelow
          rw [toList_node, ← hlist]
          exact List.mem_cons_of_mem _ hmem
        rw [depth_of_lt hlt, depth_of_lt hlt]
        exact Nat.succ_le_succ (ihLeft hleft hmem)
      · rcases List.mem_cons.mp hmem with rfl | hmem
        · rw [depth_top]
          exact Nat.zero_le _
        · rw [depth_of_gt (habove x hmem), depth_of_gt (habove x hmem)]

theorem depth_join_le (hordered : (node left item right).Ordered key)
    (hx : x ∈ (join left right).toList) :
    (join left right).depth key (key x) ≤ (node left item right).depth key (key x) := by
  obtain ⟨⟨_, hbelow⟩, hright, habove⟩ := ordered_node.mp hordered
  cases right with
  | leaf =>
      rw [depth_of_lt (hbelow x hx)]
      exact Nat.le_succ _
  | node left' top right =>
      have hlist := toList_takeLeast left' top right
      have hleast : key item < key (takeLeast left' top right).1 := by
        apply habove
        rw [toList_node, ← hlist]
        exact List.mem_cons_self
      rw [join] at hx ⊢
      rcases List.mem_append.mp hx with hmem | hmem
      · rw [depth_of_lt ((hbelow x hmem).trans hleast), depth_of_lt (hbelow x hmem)]
      · rcases List.mem_cons.mp hmem with rfl | hmem
        · rw [depth_top]
          exact Nat.zero_le _
        · have hordered' := hright
          rw [Ordered, toList_node, ← hlist, List.pairwise_cons] at hordered'
          have hlt := hordered'.1 x hmem
          rw [depth_of_gt hlt, depth_of_gt (hleast.trans hlt)]
          exact Nat.succ_le_succ (depth_takeLeast_le hright hmem)

/-- The items that stay do not get further away from the root. -/
theorem depth_delete_le (hordered : tree.Ordered key)
    (hdelete : tree.delete key k = some (found, tree')) (hx : x ∈ tree'.toList) :
    tree'.depth key (key x) ≤ tree.depth key (key x) := by
  induction tree generalizing tree' with
  | leaf => cases hdelete
  | node left item right ihLeft ihRight =>
      obtain ⟨⟨hleft, hbelow⟩, hright, habove⟩ := ordered_node.mp hordered
      rw [delete] at hdelete
      split_ifs at hdelete with hlt hgt
      · obtain ⟨⟨_, left'⟩, htaken, heq⟩ := Option.map_eq_some_iff.mp hdelete
        cases heq
        obtain ⟨_, before, behind, hlist, hlist'⟩ := delete_spec htaken
        rcases List.mem_append.mp hx with hmem | hmem
        · have hside : key x < key item := by
            apply hbelow
            rw [hlist]
            rw [hlist'] at hmem
            exact ((List.sublist_cons_self _ _).append_left _).subset hmem
          rw [depth_of_lt hside, depth_of_lt hside]
          exact Nat.succ_le_succ (ihLeft hleft htaken hmem)
        · rcases List.mem_cons.mp hmem with rfl | hmem
          · rw [depth_top]
            exact Nat.zero_le _
          · rw [depth_of_gt (habove x hmem), depth_of_gt (habove x hmem)]
      · obtain ⟨⟨_, right'⟩, htaken, heq⟩ := Option.map_eq_some_iff.mp hdelete
        cases heq
        obtain ⟨_, before, behind, hlist, hlist'⟩ := delete_spec htaken
        rcases List.mem_append.mp hx with hmem | hmem
        · rw [depth_of_lt (hbelow x hmem), depth_of_lt (hbelow x hmem)]
        · rcases List.mem_cons.mp hmem with rfl | hmem
          · rw [depth_top]
            exact Nat.zero_le _
          · have hside : key item < key x := by
              apply habove
              rw [hlist]
              rw [hlist'] at hmem
              exact ((List.sublist_cons_self _ _).append_left _).subset hmem
            rw [depth_of_gt hside, depth_of_gt hside]
            exact Nat.succ_le_succ (ihRight hright htaken hmem)
      · cases hdelete
        exact depth_join_le hordered hx

/-- A node that is put in comes below the others. -/
theorem path_probe (hordered : tree.Ordered key) (hx : x ∈ tree.toList) (new : α)
    (above : List α) :
    (tree.probe key new).path key (key x) above = tree.path key (key x) above := by
  induction tree generalizing above with
  | leaf => cases hx
  | node left item right ihLeft ihRight =>
      obtain ⟨⟨hleft, hbelow⟩, hright, habove⟩ := ordered_node.mp hordered
      rw [probe]
      rcases List.mem_append.mp hx with hmem | hmem
      · have hlt := hbelow x hmem
        split_ifs
        · rw [path, path, if_pos hlt, if_pos hlt, ihLeft hleft hmem]
        · rw [path, path, if_pos hlt, if_pos hlt]
        · rfl
      · rcases List.mem_cons.mp hmem with rfl | hmem
        · split_ifs
          · rw [path_top, path_top]
          · rw [path_top, path_top]
          · rfl
        · have hgt := habove x hmem
          split_ifs
          · rw [path, path, if_neg hgt.not_gt, if_neg hgt.not_gt, if_pos hgt]
          · rw [path, path, if_neg hgt.not_gt, if_neg hgt.not_gt, if_pos hgt, if_pos hgt,
              ihRight hright hmem]
          · rfl

theorem Ordered.mem_probe (hordered : tree.Ordered key) (hx : x ∈ tree.toList) (new : α) :
    x ∈ (tree.probe key new).toList := by
  have hfind := hordered.find_eq_some_iff.mpr ⟨hx, rfl⟩
  refine ((hordered.probe new).find_eq_some_iff (k := key x)).mp ?_ |>.1
  rw [find_probe, hfind]
  split_ifs <;> rfl

end SearchTree

end FastDCS.SearchTrees
