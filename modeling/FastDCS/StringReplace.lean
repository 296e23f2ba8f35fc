import FastDCS.MachineIntegers
import FastDCS.Strings
import FastDCS.WordSearch

/-!
`StringReplace` of `string_util.cc`, with the `int`s in which it keeps the
positions of the string.
-/

namespace FastDCS.StringReplace

open FastDCS.Strings
open FastDCS.MachineIntegers
open FastDCS.WordSearch

/-- The longest a `std::string` gets. -/
def maxSize : Nat := 2 ^ 63 - 1

structure StdString where
  chars : Str
  sized : chars.length ≤ maxSize

/-- Why the loop has no result: a position behind the string, a string that
would get too long, or more turns than are given. -/
inductive Fault where
  | outOfRange
  | lengthError
  | outOfTurns
deriving DecidableEq

/-- The value after conversion to `size_t`. -/
def sizeT (v : Int) : Nat := (v % 2 ^ 64).toNat

def npos : Nat := 2 ^ 64 - 1

namespace StdString

def find (out pattern : StdString) (pos : Nat) : Nat :=
  if pos ≤ out.chars.length then
    match firstOccurrence pattern.chars (out.chars.drop pos) with
    | some i => pos + i
    | none => npos
  else npos

def replace (out : StdString) (pos n : Nat) (replaceWith : StdString) : Except Fault StdString :=
  if pos ≤ out.chars.length then
    let chars := out.chars.take pos ++ replaceWith.chars ++ out.chars.drop (pos + n)
    if h : chars.length ≤ maxSize then .ok ⟨chars, h⟩ else .error .lengthError
  else .error .outOfRange

variable {out out' replaceWith : StdString} {pos n : Nat} {fault : Fault}

theorem replace_ends (h : out.replace pos n replaceWith = .error fault) :
    fault ≠ .outOfTurns := by
  simp only [replace] at h
  split_ifs at h
  · rw [← Except.error.inj h]
    decide
  · rw [← Except.error.inj h]
    decide

theorem length_of_replace (h : out.replace pos n replaceWith = .ok out') :
    out.chars.length + replaceWith.chars.length ≤ out'.chars.length + n := by
  simp only [replace] at h
  split_ifs at h with hpos hsized
  rw [← Except.ok.inj h]
  simp only [List.length_append, List.length_take_of_le hpos, List.length_drop]
  omega

end StdString

/-- The `while` loop with its local `curPos`. -/
def stringReplaceLoop (find replaceWith : StdString) :
    Nat → StdString → Int → Except Fault StdString
  | 0, _, _ => .error .outOfTurns
  | turns + 1, out, curPos =>
      let pos := narrow 31 (out.find find (sizeT curPos))
      if pos ≠ -1 then do
        let out ← out.replace (sizeT pos) find.chars.length replaceWith
        stringReplaceLoop find replaceWith turns out
          (narrow 31 (sizeT (pos + replaceWith.chars.length)))
      else return out

def stringReplace (turns : Nat) (input find replaceWith : StdString) : Except Fault StdString :=
  stringReplaceLoop find replaceWith turns input 0

section Turns

variable {find replaceWith out : StdString} {done rest : Str} {turns : Nat}

theorem sizeT_natCast {n : Nat} (h : n < 2 ^ 64) : sizeT (n : Int) = n := by
  rw [sizeT]
  omega

theorem narrow_natCast {n : Nat} (h : n < 2 ^ 31) : narrow 31 (n : Int) = n :=
  narrow_eq_self_iff.mpr ⟨by omega, by omega⟩

theorem narrow_npos : narrow 31 (npos : Int) = -1 := by decide

/-- No occurrence behind the current position ends the loop. -/
theorem turn_of_eq_none (hout : out.chars = done ++ rest) (hdone : done.length < 2 ^ 31)
    (h : firstOccurrence find.chars rest = none) :
    stringReplaceLoop find replaceWith (turns + 1) out done.length = .ok out := by
  have hfind : out.find find (sizeT done.length) = npos := by
    rw [sizeT_natCast (by omega), StdString.find, hout, List.drop_left, h]
    simp
  simp only [stringReplaceLoop, hfind, narrow_npos]
  rfl

/-- An occurrence whose place is an `int` is replaced. -/
theorem turn_of_eq_some (hout : out.chars = done ++ rest) {i : Nat}
    (h : firstOccurrence find.chars rest = some i) (hplace : done.length + i < 2 ^ 31)
    (hsized : (done ++ rest.take i ++ replaceWith.chars ++
      rest.drop (i + find.chars.length)).length ≤ maxSize) :
    stringReplaceLoop find replaceWith (turns + 1) out done.length =
      stringReplaceLoop find replaceWith turns
        ⟨done ++ rest.take i ++ replaceWith.chars ++ rest.drop (i + find.chars.length), hsized⟩
        (narrow 31 ((done.length + i + replaceWith.chars.length : Nat) : Int)) := by
  have hle := (firstOccurrence_eq_some h).1
  have hfind : out.find find (sizeT done.length) = done.length + i := by
    rw [sizeT_natCast (by omega), StdString.find, hout, List.drop_left, h]
    simp
  have hr := replaceWith.sized
  rw [maxSize] at hr
  have hreplace : out.replace (done.length + i) find.chars.length replaceWith =
      .ok ⟨done ++ rest.take i ++ replaceWith.chars ++ rest.drop (i + find.chars.length),
        hsized⟩ := by
    have hchars : out.chars.take (done.length + i) ++ replaceWith.chars ++
        out.chars.drop (done.length + i + find.chars.length) =
        done ++ rest.take i ++ replaceWith.chars ++ rest.drop (i + find.chars.length) := by
      rw [hout, List.take_length_add_append, Nat.add_assoc, List.drop_length_add_append]
    rw [StdString.replace, if_pos (by rw [hout, List.length_append]; omega)]
    simp only [hchars, hsized, dif_pos]
  have hnonneg : ((done.length + i : Nat) : Int) ≠ -1 := by omega
  rw [stringReplaceLoop]
  simp only [hfind, narrow_natCast hplace]
  rw [if_pos hnonneg, sizeT_natCast (by omega), hreplace, ← Nat.cast_add, sizeT_natCast (by omega)]
  rfl

theorem narrow_wrapped {n : Nat} (hle : 2 ^ 31 ≤ n) (hlt : n < 2 ^ 32) :
    narrow 31 (n : Int) = (n : Int) - 2 ^ 32 := by
  rw [narrow, Int.bmod_eq_emod]
  rw [if_pos (by omega)]
  omega

/-- A position that has become negative lies behind every string. -/
theorem turn_of_wrapped {n : Nat} (hle : 2 ^ 31 ≤ n) (hlt : n < 2 ^ 32) :
    stringReplaceLoop find replaceWith (turns + 1) out (narrow 31 (n : Int)) = .ok out := by
  have hbehind : out.chars.length < sizeT (narrow 31 (n : Int)) := by
    have hsized := out.sized
    rw [maxSize] at hsized
    rw [narrow_wrapped hle hlt, sizeT]
    omega
  have hfind : out.find find (sizeT (narrow 31 (n : Int))) = npos :=
    if_neg (Nat.not_le.mpr hbehind)
  simp only [stringReplaceLoop, hfind, narrow_npos]
  rfl

/-- A place that becomes a negative `int` ends the loop with an exception. -/
theorem turn_throws (hout : out.chars = done ++ rest) {i : Nat}
    (h : firstOccurrence find.chars rest = some i) (hdone : done.length < 2 ^ 31)
    (hle : 2 ^ 31 ≤ done.length + i) (hlt : done.length + i < 2 ^ 32 - 1) :
    stringReplaceLoop find replaceWith (turns + 1) out done.length = .error .outOfRange := by
  have hfind : out.find find (sizeT done.length) = done.length + i := by
    rw [sizeT_natCast (by omega), StdString.find, hout, List.drop_left, h]
    simp
  have hbehind : out.chars.length < sizeT (narrow 31 ((done.length + i : Nat) : Int)) := by
    have hsized := out.sized
    rw [maxSize] at hsized
    rw [narrow_wrapped hle (by omega), sizeT]
    omega
  have hne : narrow 31 ((done.length + i : Nat) : Int) ≠ -1 := by
    rw [narrow_wrapped hle (by omega)]
    omega
  simp only [stringReplaceLoop, hfind]
  rw [if_pos hne, StdString.replace, if_neg (Nat.not_le.mpr hbehind)]
  rfl

end Turns

/-- Where in the result the occurrences in front of the later pieces are
replaced, for a replacement of the given length and a first piece at `start`. -/
def places (length : Nat) : Nat → List Str → List Nat
  | _, [] => []
  | _, [_] => []
  | start, piece :: next :: rest =>
      (start + piece.length) :: places length (start + piece.length + length) (next :: rest)

theorem places_cons {length start : Nat} {piece : Str} {rest : List Str} (hrest : rest ≠ []) :
    places length start (piece :: rest) =
      (start + piece.length) :: places length (start + piece.length + length) rest := by
  obtain ⟨next, rest, rfl⟩ := List.exists_cons_of_ne_nil hrest
  rfl

/-- The text with every occurrence of `find`, taken from the left without
overlap, replaced. -/
def replaced (find replaceWith rest : Str) : Str := replaceWith.intercalate (cut find 0 rest)

example : replaced "aa".toList "baab".toList "aaaxaa".toList = "baabaxbaab".toList := by decide

section Occurrence

variable {find replaceWith rest : Str} {i : Nat}

theorem replaced_of_eq_some (hfind : find ≠ []) (h : firstOccurrence find rest = some i) :
    replaced find replaceWith rest =
      rest.take i ++ replaceWith ++ replaced find replaceWith (rest.drop (i + find.length)) := by
  rw [replaced, cut_of_eq_some hfind h, List.intercalate_cons_of_ne_nil (cut_ne_nil _ _ _)]
  rfl

theorem places_of_eq_some (hfind : find ≠ []) (h : firstOccurrence find rest = some i)
    (length start : Nat) :
    places length start (cut find 0 rest) =
      (start + i) :: places length (start + i + length)
        (cut find 0 (rest.drop (i + find.length))) := by
  have hle := (firstOccurrence_eq_some h).1
  rw [cut_of_eq_some hfind h, places_cons (cut_ne_nil _ _ _), List.length_take_of_le hle]

/-- No string on the way is longer than the first and the last one. -/
theorem sized_of_eq_some (hfind : find ≠ []) (h : firstOccurrence find rest = some i) {done : Str}
    (hout : (done ++ rest).length ≤ maxSize)
    (hresult : (done ++ replaced find replaceWith rest).length ≤ maxSize) :
    (done ++ rest.take i ++ replaceWith ++ rest.drop (i + find.length)).length ≤ maxSize := by
  have hsplit := congrArg List.length (split_of_eq_some h)
  rw [replaced_of_eq_some hfind h] at hresult
  simp only [List.length_append] at hout hresult hsplit ⊢
  rcases Nat.le_total find.length replaceWith.length with hle | hle
  · have hrest := length_le_intercalate hfind hle (rest.drop (i + find.length))
    rw [replaced] at hresult
    omega
  · omega

end Occurrence

section Runs

variable {find replaceWith out : StdString} {done rest : Str}

/-- As long as the places are `int`s the loop replaces every occurrence. -/
theorem loop_replaces (hfind : find.chars ≠ []) (hout : out.chars = done ++ rest)
    (hdone : done.length < 2 ^ 32)
    (hplaces : ∀ p ∈ places replaceWith.chars.length done.length (cut find.chars 0 rest),
      p < 2 ^ 31 ∧ p + replaceWith.chars.length < 2 ^ 32)
    (hsized : (done ++ replaced find.chars replaceWith.chars rest).length ≤ maxSize) :
    ∃ turns t, stringReplaceLoop find replaceWith turns out (narrow 31 done.length) = .ok t ∧
      t.chars = done ++ replaced find.chars replaceWith.chars rest := by
  induction hlength : rest.length using Nat.strongRecOn generalizing done rest out with
  | ind n ih =>
      cases hfirst : firstOccurrence find.chars rest with
      | none =>
          have hrest : replaced find.chars replaceWith.chars rest = rest := by
            rw [replaced, cut_of_eq_none hfirst, List.intercalate_singleton]
          rw [hrest, ← hout]
          refine ⟨1, out, ?_, rfl⟩
          rcases Nat.lt_or_ge done.length (2 ^ 31) with hlt | hge
          · rw [narrow_natCast hlt, turn_of_eq_none hout hlt hfirst]
          · exact turn_of_wrapped hge hdone
      | some i =>
          rw [places_of_eq_some hfind hfirst] at hplaces
          obtain ⟨hplace, hbehind⟩ := hplaces _ List.mem_cons_self
          have hstep := sized_of_eq_some hfind hfirst (hout ▸ out.sized) hsized
          have hle := (firstOccurrence_eq_some hfirst).1
          have hdoneLength : (done ++ rest.take i ++ replaceWith.chars).length =
              done.length + i + replaceWith.chars.length := by
            simp [List.length_take_of_le hle, Nat.add_assoc]
          have hpos := List.length_pos_iff.mpr hfind
          have hshort := congrArg List.length (split_of_eq_some hfirst)
          simp only [List.length_append] at hshort
          rw [replaced_of_eq_some hfind hfirst] at hsized ⊢
          simp only [← List.append_assoc] at hsized ⊢
          obtain ⟨turns, t, ht, hchars⟩ := ih _ (by omega)
            (show StdString.chars ⟨_, hstep⟩ = _ from rfl)
            (by rw [hdoneLength]; exact hbehind)
            (by rw [hdoneLength]; exact fun p hp => hplaces p (List.mem_cons_of_mem _ hp))
            hsized rfl
          refine ⟨turns + 1, t, ?_, hchars⟩
          rw [narrow_natCast (by omega), turn_of_eq_some hout hfirst hplace hstep, ← hdoneLength]
          exact ht

/-- Where the loop gets the result right, the places are `int`s, unless the
replacement is the word itself. -/
theorem places_of_loop (hfind : find.chars ≠ []) (hne : replaceWith.chars ≠ find.chars)
    (hout : out.chars = done ++ rest) (hdone : done.length < 2 ^ 32)
    (hplaces : ∀ p ∈ places replaceWith.chars.length done.length (cut find.chars 0 rest),
      p + replaceWith.chars.length < 2 ^ 32 - 1)
    {turns : Nat} {t : StdString}
    (hloop : stringReplaceLoop find replaceWith turns out (narrow 31 done.length) = .ok t)
    (hresult : t.chars = done ++ replaced find.chars replaceWith.chars rest) :
    ∀ p ∈ places replaceWith.chars.length done.length (cut find.chars 0 rest), p < 2 ^ 31 := by
  induction turns generalizing done rest out with
  | zero => cases hloop
  | succ turns ih =>
      cases hfirst : firstOccurrence find.chars rest with
      | none =>
          rw [cut_of_eq_none hfirst]
          exact fun p hp => absurd hp List.not_mem_nil
      | some i =>
          have hsized : (done ++ replaced find.chars replaceWith.chars rest).length ≤ maxSize :=
            hresult ▸ t.sized
          have hstep := sized_of_eq_some hfind hfirst (hout ▸ out.sized) hsized
          have hle := (firstOccurrence_eq_some hfirst).1
          rw [places_of_eq_some hfind hfirst] at hplaces ⊢
          have hplace := hplaces _ List.mem_cons_self
          rcases Nat.lt_or_ge done.length (2 ^ 31) with hlt | hge
          · rw [narrow_natCast hlt] at hloop
            rcases Nat.lt_or_ge (done.length + i) (2 ^ 31) with hint | hwrap
            · have hdoneLength : (done ++ rest.take i ++ replaceWith.chars).length =
                  done.length + i + replaceWith.chars.length := by
                simp [List.length_take_of_le hle, Nat.add_assoc]
              rw [turn_of_eq_some hout hfirst hint hstep, ← hdoneLength] at hloop
              rw [replaced_of_eq_some hfind hfirst] at hresult
              simp only [← List.append_assoc] at hresult
              have hrest := ih (show StdString.chars ⟨_, hstep⟩ = _ from rfl)
                (by rw [hdoneLength]; omega)
                (by rw [hdoneLength]; exact fun p hp => hplaces p (List.mem_cons_of_mem _ hp))
                hloop hresult
              rw [hdoneLength] at hrest
              intro p hp
              rcases List.mem_cons.mp hp with rfl | hp
              · exact hint
              · exact hrest p hp
            · rw [turn_throws hout hfirst hlt hwrap (by omega)] at hloop
              cases hloop
          · -- the loop ends in front of an occurrence
            rw [turn_of_wrapped hge hdone] at hloop
            obtain rfl := Except.ok.inj hloop
            rw [hout] at hresult
            have hsame : replaceWith.chars.intercalate (cut find.chars 0 rest) =
                find.chars.intercalate (cut find.chars 0 rest) := by
              rw [intercalate_cut hfind]
              exact (List.append_cancel_left hresult).symm
            rw [cut_of_eq_some hfind hfirst] at hsame
            exact absurd (separator_injective (cut_ne_nil _ _ _) hsame) hne

/-- A replacement longer than the word makes the string longer in every turn. -/
theorem loop_ends_of_longer (hlonger : find.chars.length < replaceWith.chars.length)
    (out : StdString) (curPos : Int) :
    ∃ turns, stringReplaceLoop find replaceWith turns out curPos ≠ .error .outOfTurns := by
  induction hroom : maxSize - out.chars.length using Nat.strongRecOn generalizing out curPos with
  | ind n ih =>
      by_cases hpos : narrow 31 (out.find find (sizeT curPos)) = -1
      · refine ⟨1, ?_⟩
        simp only [stringReplaceLoop, hpos]
        exact fun h => by cases h
      · cases hreplace : out.replace (sizeT (narrow 31 (out.find find (sizeT curPos))))
            find.chars.length replaceWith with
        | error fault =>
            refine ⟨1, ?_⟩
            simp only [stringReplaceLoop]
            rw [if_pos hpos, hreplace]
            exact fun h => StdString.replace_ends hreplace (Except.error.inj h)
        | ok out' =>
            have hlength := StdString.length_of_replace hreplace
            obtain ⟨turns, hturns⟩ := ih (maxSize - out'.chars.length)
              (by have hsized := out'.sized; omega) out' (narrow 31 (sizeT
                (narrow 31 (out.find find (sizeT curPos)) + replaceWith.chars.length))) rfl
            refine ⟨turns + 1, ?_⟩
            simp only [stringReplaceLoop]
            rw [if_pos hpos, hreplace]
            exact hturns

/-- Replacing nothing by nothing goes on for ever. -/
theorem loop_stuck (hfind : find.chars = []) (hreplace : replaceWith.chars = []) (turns : Nat)
    (out : StdString) : stringReplaceLoop find replaceWith turns out 0 = .error .outOfTurns := by
  induction turns generalizing out with
  | zero => rfl
  | succ turns ih =>
      have hfirst : firstOccurrence find.chars out.chars = some 0 := by
        rw [hfind, firstOccurrence_nil]
      have hout : out.chars = [] ++ out.chars := rfl
      have hsized : ([] ++ out.chars.take 0 ++ replaceWith.chars ++
          out.chars.drop (0 + find.chars.length)).length ≤ maxSize := by
        simpa [hfind, hreplace] using out.sized
      have hzero : narrow 31 ((([] : Str).length + 0 + replaceWith.chars.length : Nat) : Int) = 0 := by
        rw [hreplace]
        decide
      show stringReplaceLoop find replaceWith (turns + 1) out (([] : Str).length : Nat) = _
      rw [turn_of_eq_some hout hfirst (by decide) hsized, hzero]
      exact ih _

end Runs

/-- What is expected of a call: it ends, and for a word that is not empty it
replaces every occurrence. -/
structure ReplacesAll (input find replaceWith : StdString) : Prop where
  ends : ∃ turns, stringReplace turns input find replaceWith ≠ .error .outOfTurns
  replaced : find.chars ≠ [] → ∃ turns t, stringReplace turns input find replaceWith = .ok t ∧
    t.chars = replaced find.chars replaceWith.chars input.chars

/-- Where in the result the occurrences are replaced. -/
def replacedAt (input find replaceWith : StdString) : List Nat :=
  places replaceWith.chars.length 0 (cut find.chars 0 input.chars)

/-- An empty word comes with a replacement that is not empty; for any other one
the replacements begin where an `int` reaches and the result is a string. -/
def InRange (input find replaceWith : StdString) : Prop :=
  (find.chars = [] → replaceWith.chars ≠ []) ∧
    (find.chars ≠ [] →
      (∀ p ∈ replacedAt input find replaceWith,
        p < 2 ^ 31 ∧ p + replaceWith.chars.length < 2 ^ 32) ∧
      (replaced find.chars replaceWith.chars input.chars).length ≤ maxSize)

theorem replacesAll_of_inRange {input find replaceWith : StdString}
    (h : InRange input find replaceWith) : ReplacesAll input find replaceWith := by
  obtain ⟨hempty, hword⟩ := h
  by_cases hfind : find.chars = []
  · refine ⟨loop_ends_of_longer ?_ input 0, fun hne => absurd hfind hne⟩
    rw [hfind]
    exact List.length_pos_iff.mpr (hempty hfind)
  · obtain ⟨hplaces, hsized⟩ := hword hfind
    have hout : input.chars = [] ++ input.chars := rfl
    obtain ⟨turns, t, ht, hchars⟩ := loop_replaces hfind hout (by decide) hplaces hsized
    refine ⟨⟨turns, fun hturns => ?_⟩, fun _ => ⟨turns, t, ht, hchars⟩⟩
    cases ht.symm.trans hturns

/-- The condition is enough in every case, and exact where the replacement is not
the word itself and every replacement ends where an `unsigned` reaches. -/
theorem replacesAll_iff_inRange (input find replaceWith : StdString) :
    (InRange input find replaceWith → ReplacesAll input find replaceWith) ∧
      ((find.chars ≠ [] → replaceWith.chars ≠ find.chars ∧
        ∀ p ∈ replacedAt input find replaceWith, p + replaceWith.chars.length < 2 ^ 32 - 1) →
        ReplacesAll input find replaceWith → InRange input find replaceWith) := by
  refine ⟨replacesAll_of_inRange, fun hbounds h => ⟨fun hfind hreplace => ?_, fun hfind => ?_⟩⟩
  · obtain ⟨turns, hturns⟩ := h.ends
    exact hturns (loop_stuck hfind hreplace turns input)
  · obtain ⟨hne, hplaces⟩ := hbounds hfind
    obtain ⟨turns, t, ht, hchars⟩ := h.replaced hfind
    have hout : input.chars = [] ++ input.chars := rfl
    have hint := places_of_loop hfind hne hout (by decide) hplaces ht hchars
    refine ⟨fun p hp => ⟨hint p hp, ?_⟩, hchars ▸ t.sized⟩
    have hp' := hplaces p hp
    omega

theorem not_every_call_replacesAll :
    ¬∀ input find replaceWith : StdString, ReplacesAll input find replaceWith := by
  intro h
  obtain ⟨turns, hturns⟩ :=
    (h ⟨"abc".toList, by decide⟩ ⟨[], by decide⟩ ⟨[], by decide⟩).ends
  exact hturns (loop_stuck rfl rfl turns _)

end FastDCS.StringReplace
