import Mathlib.Data.List.Basic

/-!
Streams that are taken in blocks of a fixed size. What has come since the last full block is
kept, so it does not matter in which pieces a stream comes.
-/

namespace FastDCS.BlockStreams

universe u v

variable {σ : Type u} {β : Type v}

/-- The state behind the full blocks, and what has come since. -/
structure Absorbed (σ : Type u) (β : Type v) where
  state : σ
  rest : List β

/-- One more element comes. -/
def push (size : Nat) (process : σ → List β → σ) (a : Absorbed σ β) (x : β) : Absorbed σ β :=
  if a.rest.length + 1 = size then ⟨process a.state (a.rest ++ [x]), []⟩
  else ⟨a.state, a.rest ++ [x]⟩

def absorb (size : Nat) (process : σ → List β → σ) (a : Absorbed σ β) (xs : List β) :
    Absorbed σ β :=
  xs.foldl (push size process) a

/-- The first full blocks of a stream. -/
def blocks (size : Nat) : (count : Nat) → List β → List (List β)
  | 0, _ => []
  | count + 1, xs => xs.take size :: blocks size count (xs.drop size)

variable {size : Nat} {process : σ → List β → σ} {a : Absorbed σ β} {s : σ} {xs ys : List β}

theorem absorb_cons (x : β) :
    absorb size process a (x :: xs) = absorb size process (push size process a x) xs := rfl

theorem absorb_append :
    absorb size process a (xs ++ ys) = absorb size process (absorb size process a xs) ys :=
  List.foldl_append

theorem absorb_of_short (hshort : a.rest.length + xs.length < size) :
    absorb size process a xs = ⟨a.state, a.rest ++ xs⟩ := by
  induction xs generalizing a with
  | nil => simp [absorb]
  | cons x xs ih =>
      rw [List.length_cons] at hshort
      have hpush : push size process a x = ⟨a.state, a.rest ++ [x]⟩ := by
        apply if_neg
        omega
      rw [absorb_cons, hpush, ih]
      · simp
      · simp only [List.length_append, List.length_singleton]
        omega

theorem absorb_of_full (hfull : a.rest.length + xs.length = size) (hne : xs ≠ []) :
    absorb size process a xs = ⟨process a.state (a.rest ++ xs), []⟩ := by
  obtain ⟨ys, y, rfl⟩ := List.eq_nil_or_concat' xs |>.resolve_left hne
  rw [List.length_append, List.length_singleton] at hfull
  have hlast : push size process ⟨a.state, a.rest ++ ys⟩ y =
      ⟨process a.state (a.rest ++ ys ++ [y]), []⟩ := by
    apply if_pos
    simp only [List.length_append]
    omega
  have hbefore : absorb size process a ys = ⟨a.state, a.rest ++ ys⟩ := absorb_of_short (by omega)
  rw [absorb_append, hbefore, absorb_cons, hlast, List.append_assoc]
  rfl

/-- A block that comes whole is processed where it is. -/
theorem absorb_block (hlength : xs.length = size) (hne : xs ≠ []) :
    absorb size process ⟨s, []⟩ xs = ⟨process s xs, []⟩ := by
  apply absorb_of_full
  · simpa using hlength
  · exact hne

theorem absorb_blocks (hpos : 0 < size) {count : Nat} (hlength : xs.length = count * size) :
    absorb size process ⟨s, []⟩ xs = ⟨(blocks size count xs).foldl process s, []⟩ := by
  induction count generalizing s xs with
  | zero =>
      have hnil : xs = [] := by simpa using hlength
      rw [hnil]
      rfl
  | succ count ih =>
      rw [Nat.succ_mul] at hlength
      have htake : (xs.take size).length = size := by
        rw [List.length_take]
        omega
      have hdrop : (xs.drop size).length = count * size := by
        rw [List.length_drop]
        omega
      have hne : xs.take size ≠ [] := by
        apply List.ne_nil_of_length_pos
        omega
      conv_lhs => rw [← List.take_append_drop size xs]
      rw [absorb_append, absorb_block htake hne, ih hdrop, blocks, List.foldl_cons]

end FastDCS.BlockStreams
