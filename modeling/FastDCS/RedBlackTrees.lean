import Mathlib.Data.Nat.Log
import FastDCS.SidedTrees

/-!
Red-black trees over any items that have a colour: how a balanced tree comes apart
at a place, what may stand there again, and how few levels it has.
-/

namespace FastDCS.RedBlackTrees

open FastDCS.SearchTrees
open FastDCS.SearchTrees.SearchTree

universe u

inductive Color where
  | red
  | black
deriving DecidableEq

variable {α : Type u} (color : α → Color)

def topColor : SearchTree α → Color
  | .leaf => .black
  | .node _ item _ => color item

/-- No red node has a red child, and all ways down have the same number of black nodes. -/
inductive Balanced : SearchTree α → Color → Nat → Prop where
  | leaf : Balanced .leaf .black 0
  | red {left item right n} : color item = .red → Balanced left .black n →
      Balanced right .black n → Balanced (.node left item right) .red n
  | black {left item right c d n} : color item = .black → Balanced left c n →
      Balanced right d n → Balanced (.node left item right) .black (n + 1)

/-- What stands above a place where a tree with `n` black nodes on its ways down
belongs. The colour is that of the nearest node, and nothing is black. -/
inductive Around : List (Frame α) → Color → Nat → Prop where
  | top {n} : Around [] .black n
  | red {side item sibling above n} : color item = .red → Balanced color sibling .black n →
      above ≠ [] → Around above .black n → Around (.toward side item sibling :: above) .red n
  | black {side item sibling above c d n} : color item = .black → Balanced color sibling c n →
      Around above d (n + 1) → Around (.toward side item sibling :: above) .black n

variable {color} {near far tree left right : SearchTree α} {item : α} {above : List (Frame α)}
  {c d : Color} {n : Nat} {side : Side}

namespace Balanced

theorem topColor_eq (h : Balanced color tree c n) : topColor color tree = c := by
  cases h with
  | leaf => rfl
  | red hitem _ _ => exact hitem
  | black hitem _ _ => exact hitem

theorem branch_red (hitem : color item = .red) (hnear : Balanced color near .black n)
    (hfar : Balanced color far .black n) :
    Balanced color (.branch side near item far) .red n := by
  cases side with
  | left => exact .red hitem hnear hfar
  | right => exact .red hitem hfar hnear

theorem branch_black (hitem : color item = .black) (hnear : Balanced color near c n)
    (hfar : Balanced color far d n) :
    Balanced color (.branch side near item far) .black (n + 1) := by
  cases side with
  | left => exact .black hitem hnear hfar
  | right => exact .black hitem hfar hnear

theorem of_branch_red (h : Balanced color (.branch side near item far) .red n) :
    color item = .red ∧ Balanced color near .black n ∧ Balanced color far .black n := by
  cases side with
  | left =>
      cases h with
      | red hitem hleft hright => exact ⟨hitem, hleft, hright⟩
  | right =>
      cases h with
      | red hitem hleft hright => exact ⟨hitem, hright, hleft⟩

theorem of_branch_black (h : Balanced color (.branch side near item far) .black n) :
    ∃ m c d, n = m + 1 ∧ color item = .black ∧ Balanced color near c m ∧
      Balanced color far d m := by
  cases side with
  | left =>
      cases h with
      | black hitem hleft hright => exact ⟨_, _, _, rfl, hitem, hleft, hright⟩
  | right =>
      cases h with
      | black hitem hleft hright => exact ⟨_, _, _, rfl, hitem, hright, hleft⟩

/-- A tree with black nodes has a top. -/
theorem exists_top (h : Balanced color tree c (n + 1)) (side : Side) :
    ∃ near item far, tree = .branch side near item far := by
  cases tree with
  | leaf => cases h
  | node left item right =>
      obtain ⟨near, far, heq⟩ := exists_branch side left right item
      exact ⟨near, item, far, heq⟩

theorem two_pow_le (h : Balanced color tree c n) : 2 ^ n ≤ tree.size + 1 := by
  induction h with
  | leaf => exact le_rfl
  | red _ _ _ ihLeft ihRight =>
      rw [size_node]
      omega
  | black _ _ _ ihLeft ihRight =>
      rw [size_node, Nat.pow_succ]
      omega

/-- At most every other node on a way down is red. -/
theorem levels_le (h : Balanced color tree c n) :
    tree.levels ≤ 2 * n + if c = .red then 1 else 0 := by
  induction h with
  | leaf => exact Nat.zero_le _
  | red _ _ _ ihLeft ihRight =>
      rw [levels_node]
      simp only [reduceCtorEq, if_false, if_true] at ihLeft ihRight ⊢
      omega
  | black _ _ _ ihLeft ihRight =>
      rw [levels_node]
      simp only [reduceCtorEq, if_false]
      split_ifs at ihLeft ihRight <;> omega

/-- A balanced tree has few levels. -/
theorem levels_le_log (h : Balanced color tree .black n) :
    tree.levels ≤ 2 * Nat.log 2 (tree.size + 1) := by
  have hlevels := h.levels_le
  have hlog : n ≤ Nat.log 2 (tree.size + 1) := Nat.le_log_of_pow_le Nat.one_lt_two h.two_pow_le
  simp only [reduceCtorEq, if_false] at hlevels
  omega

end Balanced

/-- A tree that may stand at a place. -/
def Fits (above : List (Frame α)) (parent c : Color) : Prop :=
  (parent = .red → c = .black) ∧ (above = [] → c = .black)

theorem fits_black (above : List (Frame α)) (parent : Color) : Fits above parent .black :=
  ⟨fun _ => rfl, fun _ => rfl⟩

/-- Every tree may hang from a black node. -/
theorem fits_of_cons (frame : Frame α) (c : Color) : Fits (frame :: above) .black c :=
  ⟨nofun, nofun⟩

theorem Around.plug (habove : Around color above d n) (htree : Balanced color tree c n)
    (hfits : Fits above d c) : ∃ m, Balanced color (plug above tree) .black m := by
  induction habove generalizing tree c with
  | top =>
      obtain rfl := hfits.2 rfl
      exact ⟨_, htree⟩
  | red hitem hsibling hne _ ih =>
      obtain rfl := hfits.1 rfl
      rw [SearchTree.plug, Frame.fill_toward]
      refine ih (.branch_red hitem htree hsibling) ⟨fun hred => ?_, fun hnil => absurd hnil hne⟩
      cases hred
  | black hitem hsibling _ ih =>
      rw [SearchTree.plug, Frame.fill_toward]
      exact ih (.branch_black hitem htree hsibling) (fits_black _ _)

theorem exists_around {m : Nat} (h : Balanced color (plug above tree) .black m) :
    ∃ d c n, Around color above d n ∧ Balanced color tree c n ∧ Fits above d c := by
  induction above generalizing tree with
  | nil => exact ⟨_, _, _, .top, h, fits_black _ _⟩
  | cons frame above ih =>
      obtain ⟨d, c, n, habove, hfilled, hfits⟩ := ih h
      obtain ⟨side, item, sibling, rfl⟩ := frame.exists_toward
      rw [Frame.fill_toward] at hfilled
      cases c with
      | red =>
          obtain ⟨hitem, htree, hsibling⟩ := hfilled.of_branch_red
          have hd : d = .black := by
            cases d with
            | black => rfl
            | red => exact absurd (hfits.1 rfl) nofun
          subst hd
          exact ⟨_, _, _, .red hitem hsibling (fun hnil => absurd (hfits.2 hnil) nofun) habove,
            htree, fits_black _ _⟩
      | black =>
          obtain ⟨m, c', d', rfl, hitem, htree, hsibling⟩ := hfilled.of_branch_black
          exact ⟨_, _, _, .black hitem hsibling habove, htree, fits_of_cons _ _⟩

/-- What the nearest node says about the place that it leaves for a tree. -/
theorem Around.of_toward {sibling : SearchTree α}
    (h : Around color (.toward side item sibling :: above) d n) :
    color item = .red ∧ d = .red ∧ Balanced color sibling .black n ∧ above ≠ [] ∧
        Around color above .black n ∨
      color item = .black ∧ d = .black ∧
        ∃ c d', Balanced color sibling c n ∧ Around color above d' (n + 1) := by
  generalize hframe : Frame.toward side item sibling = frame at h
  cases h with
  | red hitem hsibling hne habove =>
      obtain ⟨rfl, rfl, rfl⟩ := Frame.toward_inj hframe
      exact Or.inl ⟨hitem, rfl, hsibling, hne, habove⟩
  | black hitem hsibling habove =>
      obtain ⟨rfl, rfl, rfl⟩ := Frame.toward_inj hframe
      exact Or.inr ⟨hitem, rfl, _, _, hsibling, habove⟩

theorem Around.of_red (h : Around color above .red n) :
    ∃ side item sibling rest, above = .toward side item sibling :: rest ∧ color item = .red ∧
      Balanced color sibling .black n ∧ rest ≠ [] ∧ Around color rest .black n := by
  cases h with
  | red hitem hsibling hne habove => exact ⟨_, _, _, _, rfl, hitem, hsibling, hne, habove⟩

theorem Around.of_black_cons {frame : Frame α} (h : Around color (frame :: above) .black n) :
    ∃ side item sibling c d, frame = .toward side item sibling ∧ color item = .black ∧
      Balanced color sibling c n ∧ Around color above d (n + 1) := by
  cases h with
  | black hitem hsibling habove => exact ⟨_, _, _, _, _, rfl, hitem, hsibling, habove⟩

end FastDCS.RedBlackTrees
