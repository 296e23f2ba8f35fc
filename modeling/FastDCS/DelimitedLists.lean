import Mathlib.Data.List.Infix

/-!
Lists cut into pieces by a delimiter: scanning for the maximal runs free of the
delimiter, and looking for a delimiter-free word inside pieces joined by it.
-/

namespace FastDCS.DelimitedLists

universe u

variable {α : Type u}

section Scanning

variable [DecidableEq α]

/-- Scan for the runs free of the delimiter. The second argument is the run
being scanned, or `none` between two runs. -/
def scan (d : α) : List α → Option (List α) → List (List α)
  | [], none => []
  | [], some piece => [piece]
  | x :: rest, none => if x = d then scan d rest none else scan d rest (some [x])
  | x :: rest, some piece =>
      if x = d then piece :: scan d rest none else scan d rest (some (piece ++ [x]))

/-- Scanning splits at every delimiter and drops the empty pieces. The second
part is what the induction needs in the middle of a run. -/
theorem scan_eq_filter_splitOn (d : α) (l : List α) :
    scan d l none = (l.splitOn d).filter (· ≠ []) ∧
      ∀ piece, piece ≠ [] →
        scan d l (some piece) =
          ((l.splitOn d).modifyHead (piece ++ ·)).filter (· ≠ []) := by
  induction l with
  | nil => exact ⟨by simp [scan], fun piece hpiece => by simp [scan, hpiece]⟩
  | cons x rest ih =>
      obtain ⟨ihNone, ihSome⟩ := ih
      rw [List.splitOn_cons_eq_if_modifyHead]
      by_cases hx : x = d
      · subst hx
        refine ⟨by simpa [scan] using ihNone, ?_⟩
        intro piece hpiece
        simpa [scan, hpiece] using ihNone
      · rw [if_neg (by simpa using hx)]
        refine ⟨?_, ?_⟩
        · rw [scan, if_neg hx, ihSome [x] (by simp)]
          rfl
        · intro piece hpiece
          rw [scan, if_neg hx, ihSome (piece ++ [x]) (by simp), List.modifyHead_modifyHead]
          congr 2
          funext head
          simp

theorem scan_intercalate {d : α} {xs : List (List α)} (hd : ∀ x ∈ xs, d ∉ x)
    (hne : ∀ x ∈ xs, x ≠ []) : scan d ([d].intercalate xs) none = xs := by
  rw [(scan_eq_filter_splitOn d _).1]
  rcases eq_or_ne xs [] with rfl | hxs
  · simp
  · rw [List.splitOn_intercalate d hd hxs, List.filter_eq_self]
    simpa using hne

/-- A run that has begun goes on to the next delimiter. -/
theorem scan_some (d : α) (piece l : List α) :
    scan d l (some piece) =
      (piece ++ l.takeWhile (· ≠ d)) :: scan d (l.dropWhile (· ≠ d)) none := by
  induction l generalizing piece with
  | nil => simp [scan]
  | cons x rest ih =>
      rw [scan]
      by_cases hx : x = d
      · simp [hx, scan]
      · rw [if_neg hx, ih]
        simp [hx]

theorem scan_cons_of_ne {d x : α} (hx : x ≠ d) (rest : List α) :
    scan d (x :: rest) none =
      (x :: rest).takeWhile (· ≠ d) :: scan d ((x :: rest).dropWhile (· ≠ d)) none := by
  rw [scan, if_neg hx, scan_some]
  simp [hx]

theorem scan_dropWhile (d : α) (l : List α) :
    scan d (l.dropWhile (· = d)) none = scan d l none := by
  induction l with
  | nil => rfl
  | cons x rest ih =>
      by_cases hx : x = d
      · simpa [hx, scan] using ih
      · simp [hx]

theorem ne_nil_of_mem_scan {d : α} {l piece : List α} (h : piece ∈ scan d l none) :
    piece ≠ [] := by
  rw [(scan_eq_filter_splitOn d l).1] at h
  simpa using (List.mem_filter.mp h).2

/-- The delimiter is in no run, as long as it is not in the one that has begun. -/
theorem not_mem_of_mem_scan {d : α} {l : List α} {start : Option (List α)}
    (hstart : ∀ run, start = some run → d ∉ run) {piece : List α} (h : piece ∈ scan d l start) :
    d ∉ piece := by
  induction l generalizing start with
  | nil =>
      cases start with
      | none => exact absurd h List.not_mem_nil
      | some run =>
          rw [List.mem_singleton.mp h]
          exact hstart run rfl
  | cons x rest ih =>
      cases start with
      | none =>
          rw [scan] at h
          split_ifs at h with hx
          · exact ih hstart h
          · refine ih (fun run hrun => ?_) h
            rw [← Option.some.inj hrun]
            simpa using Ne.symm hx
      | some run =>
          rw [scan] at h
          split_ifs at h with hx
          · rcases List.mem_cons.mp h with rfl | h
            · exact hstart _ rfl
            · exact ih (fun run hrun => absurd hrun (by simp)) h
          · refine ih (fun longer hlonger => ?_) h
            rw [← Option.some.inj hlonger, List.mem_append]
            rintro (hmem | hmem)
            · exact hstart run rfl hmem
            · exact hx (List.mem_singleton.mp hmem).symm

/-- How many runs free of the delimiter begin in a list that follows `previous`. -/
def runStarts (d previous : α) (l : List α) : Nat :=
  ((previous :: l).zip l).countP fun pair => pair.1 = d ∧ pair.2 ≠ d

theorem length_scan (d : α) (l : List α) :
    (scan d l none).length = runStarts d d l ∧
      ∀ previous, previous ≠ d → ∀ piece,
        (scan d l (some piece)).length = runStarts d previous l + 1 := by
  induction l with
  | nil => exact ⟨rfl, fun previous _ piece => rfl⟩
  | cons x rest ih =>
      obtain ⟨ihNone, ihSome⟩ := ih
      have hcons : ∀ previous, runStarts d previous (x :: rest) =
          runStarts d x rest + if previous = d ∧ x ≠ d then 1 else 0 := by
        intro previous
        simp [runStarts, List.countP_cons]
      by_cases hx : x = d
      · subst hx
        constructor
        · simp [scan, hcons, ihNone]
        · intro previous hprevious piece
          simp [scan, hcons, ihNone, hprevious]
      · constructor
        · simp [scan, hcons, hx, ihSome x hx]
        · intro previous hprevious piece
          simp [scan, hcons, hx, hprevious, ihSome x hx]

end Scanning

theorem intercalate_concat (d : α) (x : List α) {xs : List (List α)} (h : xs ≠ []) :
    [d].intercalate (xs ++ [x]) = [d].intercalate xs ++ d :: x := by
  induction xs with
  | nil => exact absurd rfl h
  | cons y rest ih =>
      cases rest with
      | nil => simp
      | cons z rest =>
          have hrest := ih (by simp)
          simp only [List.cons_append, List.intercalate_cons_cons, List.append_assoc] at hrest ⊢
          rw [hrest]

theorem intercalate_ne_nil {d : α} {xs : List (List α)} (h : xs ≠ [])
    (hne : ∀ x ∈ xs, x ≠ []) : [d].intercalate xs ≠ [] := by
  cases xs with
  | nil => exact absurd rfl h
  | cons x rest =>
      cases rest with
      | nil => simpa using hne x List.mem_cons_self
      | cons y rest => simp

/-- Appending a piece to the joined ones, with a delimiter in front of it unless
it is the first. -/
theorem intercalate_append_piece {d : α} {xs : List (List α)} (hne : ∀ x ∈ xs, x ≠ [])
    (x : List α) :
    (if ([d].intercalate xs).isEmpty then [d].intercalate xs ++ x
      else [d].intercalate xs ++ d :: x) = [d].intercalate (xs ++ [x]) := by
  rcases eq_or_ne xs [] with rfl | hxs
  · simp
  · rw [if_neg (by simpa using intercalate_ne_nil hxs hne), intercalate_concat d x hxs]

/-- Appending the selected pieces one by one joins them. -/
theorem foldl_append_piece {d : α} {p : List α → Bool} {done xs : List (List α)}
    (hdone : ∀ x ∈ done, x ≠ []) (hne : ∀ x ∈ xs, x ≠ []) :
    xs.foldl (fun text x =>
        if p x then if text.isEmpty then text ++ x else text ++ d :: x else text)
        ([d].intercalate done) =
      [d].intercalate (done ++ xs.filter p) := by
  induction xs generalizing done with
  | nil => simp
  | cons x rest ih =>
      have hrest : ∀ y ∈ rest, y ≠ [] := fun y hy => hne y (List.mem_cons_of_mem _ hy)
      rw [List.foldl_cons]
      by_cases hp : p x
      · have hnext : ∀ y ∈ done ++ [x], y ≠ [] := by
          intro y hy
          rcases List.mem_append.mp hy with hold | hnew
          · exact hdone y hold
          · rw [List.mem_singleton.mp hnew]
            exact hne x List.mem_cons_self
        rw [if_pos hp, intercalate_append_piece hdone, ih hnext hrest, List.filter_cons_of_pos hp, List.append_assoc,
          List.singleton_append]
      · rw [if_neg hp, ih hdone hrest, List.filter_cons_of_neg hp]

theorem infix_append_cons_iff {d : α} {w a b : List α} (h : d ∉ w) :
    w <:+: a ++ d :: b ↔ w <:+: a ∨ w <:+: b := by
  constructor
  · rintro ⟨s, t, hst⟩
    rw [List.append_assoc] at hst
    rcases List.append_eq_append_iff.mp hst with ⟨a', rfl, hrest⟩ | ⟨b', rfl, hrest⟩
    · -- the word starts inside `a`, and cannot run past the delimiter
      left
      rcases List.append_eq_append_iff.mp hrest with ⟨c, rfl, _⟩ | ⟨c, hw, hc⟩
      · exact ⟨s, c, by simp⟩
      · cases c with
        | nil =>
            rw [List.append_nil] at hw
            exact ⟨s, [], by simp [hw]⟩
        | cons x c =>
            obtain ⟨rfl, _⟩ := List.cons.inj hc
            exact absurd (by simp [hw]) h
    · -- the word starts at or after the delimiter
      cases b' with
      | nil =>
          cases w with
          | nil => exact Or.inl (List.nil_infix)
          | cons x w =>
              obtain ⟨rfl, _⟩ := List.cons.inj hrest
              exact absurd List.mem_cons_self h
      | cons x b' =>
          obtain ⟨_, hb⟩ := List.cons.inj hrest
          exact Or.inr ⟨b', t, by simp [hb]⟩
  · rintro (hw | hw)
    · exact hw.trans (List.infix_append' [] a (d :: b))
    · exact hw.trans ⟨a ++ [d], [], by simp⟩

/-- A word free of the delimiter occurs in the joined pieces exactly when it
occurs in one of them. -/
theorem infix_intercalate_iff {d : α} {w : List α} {xs : List (List α)} (h : d ∉ w)
    (hw : w ≠ []) : w <:+: [d].intercalate xs ↔ ∃ x ∈ xs, w <:+: x := by
  induction xs with
  | nil => simp [hw]
  | cons x rest ih =>
      cases rest with
      | nil => simp
      | cons y rest =>
          rw [List.intercalate_cons_cons, List.append_assoc, List.singleton_append,
            infix_append_cons_iff h, ih]
          simp

end FastDCS.DelimitedLists
