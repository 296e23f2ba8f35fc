import FastDCS.MachineIntegers
import FastDCS.Strings

/-!
`split_string.h` and `split_string.cc`: the two ways in which `SplitStringUsing`
goes through a string, and the count of the pieces it reserves memory for.

A pointer into the string is the rest of the string from there.
-/

namespace FastDCS.SplitString

open FastDCS.Strings
open FastDCS.DelimitedLists
open FastDCS.MachineIntegers

/-- The characters in front of the NUL that ends a `const char*`. -/
structure CString where
  chars : Str
  noNul : '\x00' ∉ chars

namespace CString

/-- `s[i]`, up to the terminating NUL. -/
def charAt (s : CString) (i : Nat) : Char := s.chars.getD i '\x00'

/-- The test `delim[0] != '\0' && delim[1] == '\0'`. -/
def isSingle (s : CString) : Bool := s.charAt 0 ≠ '\x00' && s.charAt 1 = '\x00'

end CString

/-- `while (++p != end && *p != c)`, from behind the first increment. -/
def skipPiece (c : Char) : Str → Str
  | [] => []
  | x :: rest => if x ≠ c then skipPiece c rest else x :: rest

theorem skipPiece_eq (c : Char) (p : Str) : skipPiece c p = p.dropWhile (· ≠ c) := by
  induction p with
  | nil => rfl
  | cons x rest ih =>
      rw [skipPiece, List.dropWhile_cons]
      simp [ih]

theorem length_skipPiece_le (c : Char) (p : Str) : (skipPiece c p).length ≤ p.length := by
  rw [skipPiece_eq]
  exact (List.dropWhile_suffix _).length_le

/-- The loop for one delimiting character, from the pointer `p` on. -/
def singleCharacterLoop (c : Char) : Str → List Str → List Str
  | [], result => result
  | x :: rest, result =>
      if x = c then singleCharacterLoop c rest result
      else
        singleCharacterLoop c (skipPiece c rest)
          (result ++ [(x :: rest).take ((x :: rest).length - (skipPiece c rest).length)])
termination_by p => p.length
decreasing_by
  · exact Nat.lt_succ_self _
  · exact Nat.lt_succ_of_le (length_skipPiece_le c rest)

/-- The loop of `CalculateReserveForVector`; no result where the `int` overflows. -/
def countLoop (c : Char) : Str → Int → Option Int
  | [], count => some count
  | x :: rest, count =>
      if x = c then countLoop c rest count
      else (checked 31 (count + 1)).bind fun count => countLoop c (skipPiece c rest) count
termination_by p => p.length
decreasing_by
  · exact Nat.lt_succ_self _
  · exact Nat.lt_succ_of_le (length_skipPiece_le c rest)

def calculateReserveForVector (full : Str) (delim : CString) : Option Int :=
  if delim.isSingle then countLoop (delim.charAt 0) full 0 else some 0

section Searching

variable {p : Char → Bool} {full : Str} {pos i : Nat}

/-- The first index from `pos` on whose character passes the test; `none` for
`npos`. -/
def findFrom (p : Char → Bool) (full : Str) (pos : Nat) : Option Nat :=
  ((full.drop pos).findIdx? p).map (pos + ·)

theorem findFrom_eq_none (h : findFrom p full pos = none) :
    (full.drop pos).takeWhile (fun x => !p x) = full.drop pos ∧
      (full.drop pos).dropWhile (fun x => !p x) = [] := by
  rw [findFrom, Option.map_eq_none_iff, List.findIdx?_eq_none_iff] at h
  constructor
  · rw [List.takeWhile_eq_self_iff]
    exact fun x hx => by simpa using h x hx
  · rw [List.dropWhile_eq_nil_iff]
    exact fun x hx => by simpa using h x hx

/-- The search stops at the first character that passes. -/
theorem findFrom_eq_some (h : findFrom p full pos = some i) :
    pos ≤ i ∧ i < full.length ∧
      (full.drop pos).take (i - pos) = (full.drop pos).takeWhile (fun x => !p x) ∧
        full.drop i = (full.drop pos).dropWhile (fun x => !p x) := by
  rw [findFrom, Option.map_eq_some_iff] at h
  obtain ⟨k, hk, rfl⟩ := h
  rw [List.findIdx?_eq_some_iff_findIdx_eq, List.length_drop] at hk
  obtain ⟨hlt, hk⟩ := hk
  refine ⟨Nat.le_add_right pos k, by omega, ?_, ?_⟩
  · rw [Nat.add_sub_cancel_left, List.takeWhile_eq_take_findIdx_not]
    simp [hk]
  · rw [← List.drop_drop, List.dropWhile_eq_drop_findIdx_not]
    simp [hk]

theorem findFrom_passes (h : findFrom p full pos = some i) :
    ∃ x rest, full.drop i = x :: rest ∧ p x = true := by
  obtain ⟨_, hlt, _, hdrop⟩ := findFrom_eq_some h
  refine ⟨full[i], full.drop (i + 1), List.drop_eq_getElem_cons hlt, ?_⟩
  have hne : (full.drop pos).dropWhile (fun x => !p x) ≠ [] := by
    rw [← hdrop]
    exact fun hnil => absurd (List.drop_eq_nil_iff.mp hnil) (by omega)
  have hhead := List.head_dropWhile_not (fun x => !p x) hne
  simp only [← hdrop, List.head_drop] at hhead
  simpa using hhead

end Searching

/-- `full.find_first_of(delim, pos)`. -/
def findFirstOf (full : Str) (delim : CString) (pos : Nat) : Option Nat :=
  findFrom (· ∈ delim.chars) full pos

/-- `full.find_first_not_of(delim, pos)`. -/
def findFirstNotOf (full : Str) (delim : CString) (pos : Nat) : Option Nat :=
  findFrom (· ∉ delim.chars) full pos

/-- Each turn of the index loop gets further into the string. -/
theorem findFirst_advances {full : Str} {delim : CString} {beginIndex endIndex next : Nat}
    (hend : findFirstOf full delim beginIndex = some endIndex)
    (hnext : findFirstNotOf full delim endIndex = some next) :
    full.length - next < full.length - beginIndex := by
  obtain ⟨hle, _⟩ := findFrom_eq_some hend
  obtain ⟨hle', hlt, _⟩ := findFrom_eq_some hnext
  obtain ⟨x, rest, hx, hin⟩ := findFrom_passes hend
  obtain ⟨y, rest', hy, hout⟩ := findFrom_passes hnext
  have hne : endIndex ≠ next := by
    rintro rfl
    obtain ⟨rfl, _⟩ := List.cons.inj (hx.symm.trans hy)
    exact of_decide_eq_true hout (of_decide_eq_true hin)
  omega

/-- The body of the `while` loop over the indices, with `begin_index` not
`npos`. -/
def indexLoop (full : Str) (delim : CString) (beginIndex : Nat) (result : List Str) : List Str :=
  match _ : findFirstOf full delim beginIndex with
  | none => result ++ [full.drop beginIndex]
  | some endIndex =>
      match _ : findFirstNotOf full delim endIndex with
      | none => result ++ [(full.drop beginIndex).take (endIndex - beginIndex)]
      | some next =>
          indexLoop full delim next
            (result ++ [(full.drop beginIndex).take (endIndex - beginIndex)])
termination_by full.length - beginIndex
decreasing_by exact findFirst_advances (by assumption) (by assumption)

/-- What is behind the fast path of `SplitStringToIteratorUsing`. -/
def delimiterSetLoop (full : Str) (delim : CString) (result : List Str) : List Str :=
  match findFirstNotOf full delim 0 with
  | none => result
  | some beginIndex => indexLoop full delim beginIndex result

def splitStringToIteratorUsing (full : Str) (delim : CString) (result : List Str) : List Str :=
  if delim.isSingle then singleCharacterLoop (delim.charAt 0) full result
  else delimiterSetLoop full delim result

/-- `SplitStringUsing`; no result where counting the pieces overflows. -/
def splitStringUsing (full : Str) (delim : CString) (result : List Str) : Option (List Str) :=
  (calculateReserveForVector full delim).map fun _ =>
    splitStringToIteratorUsing full delim result

theorem take_sub_length_dropWhile (q : Char → Bool) (p : Str) :
    p.take (p.length - (p.dropWhile q).length) = p.takeWhile q := by
  have hlength := congrArg List.length (List.takeWhile_append_dropWhile (p := q) (l := p))
  rw [List.length_append] at hlength
  rw [List.prefix_iff_eq_take.mp (List.takeWhile_prefix q), ← hlength, Nat.add_sub_cancel]

theorem skipPiece_of_ne {c x : Char} (hx : x ≠ c) (rest : Str) :
    skipPiece c rest = (x :: rest).dropWhile (· ≠ c) := by
  rw [skipPiece_eq]
  simp [hx]

theorem singleCharacterLoop_eq (c : Char) (p : Str) (result : List Str) :
    singleCharacterLoop c p result = result ++ scan c p none := by
  induction p, result using singleCharacterLoop.induct c with
  | case1 result => simp [singleCharacterLoop, scan]
  | case2 result rest ih => simpa [singleCharacterLoop, scan] using ih
  | case3 result x rest hx ih =>
      rw [singleCharacterLoop, if_neg hx, ih, scan_cons_of_ne hx, skipPiece_of_ne hx,
        take_sub_length_dropWhile, List.append_assoc, List.singleton_append]

/-- The count goes up by one for each piece, as long as it is an `int`. -/
theorem countLoop_eq (c : Char) (p : Str) (count : Int) (hcount : Fits 31 count) (h0 : 0 ≤ count) :
    countLoop c p count = checked 31 (count + (scan c p none).length) := by
  induction p, count using countLoop.induct c with
  | case1 count =>
      rw [countLoop]
      simp [scan, checked, hcount]
  | case2 rest count ih => simpa [countLoop, scan] using ih hcount h0
  | case3 x rest count hx ih =>
      rw [countLoop, if_neg hx, scan_cons_of_ne hx, ← skipPiece_of_ne hx, List.length_cons]
      by_cases hfits : Fits 31 (count + 1)
      · have hsome : checked 31 (count + 1) = some (count + 1) := if_pos hfits
        rw [hsome, Option.bind_some, ih (count + 1) hfits (by omega)]
        congr 1
        push_cast
        ring
      · rw [checked, if_neg hfits, checked, if_neg]
        · rfl
        · rintro ⟨_, hlt⟩
          refine hfits ⟨by omega, ?_⟩
          push_cast at hlt
          omega

section SingleDelimiter

variable {full : Str} {delim : CString} {c : Char}

/-- An index at which a piece begins. -/
def BeginsPiece (c : Char) (full : Str) (index : Nat) : Prop :=
  ∃ x rest, full.drop index = x :: rest ∧ x ≠ c

theorem scan_of_beginsPiece {index : Nat} (h : BeginsPiece c full index) :
    scan c (full.drop index) none =
      (full.drop index).takeWhile (· ≠ c) ::
        scan c ((full.drop index).dropWhile (· ≠ c)) none := by
  obtain ⟨x, rest, hdrop, hx⟩ := h
  rw [hdrop]
  exact scan_cons_of_ne hx rest

/-- Looking for the delimiter cuts off the piece. -/
theorem scan_findFirstOf (hdelim : delim.chars = [c]) {beginIndex : Nat}
    (hbegin : BeginsPiece c full beginIndex) :
    (findFirstOf full delim beginIndex = none →
      scan c (full.drop beginIndex) none = [full.drop beginIndex]) ∧
    ∀ endIndex, findFirstOf full delim beginIndex = some endIndex →
      scan c (full.drop beginIndex) none =
        (full.drop beginIndex).take (endIndex - beginIndex) ::
          scan c (full.drop endIndex) none := by
  have htest : ∀ x, (!decide (x ∈ delim.chars)) = decide (x ≠ c) := by simp [hdelim]
  rw [scan_of_beginsPiece hbegin]
  constructor
  · intro hnone
    obtain ⟨htake, hdrop⟩ := findFrom_eq_none hnone
    simp only [htest] at htake hdrop
    rw [htake, hdrop]
    rfl
  · intro endIndex hsome
    obtain ⟨_, _, htake, hdrop⟩ := findFrom_eq_some hsome
    simp only [htest] at htake hdrop
    rw [htake, hdrop]

/-- Looking for another character skips delimiters. -/
theorem scan_findFirstNotOf (hdelim : delim.chars = [c]) (index : Nat) :
    (findFirstNotOf full delim index = none → scan c (full.drop index) none = []) ∧
    ∀ next, findFirstNotOf full delim index = some next →
      scan c (full.drop index) none = scan c (full.drop next) none ∧
        BeginsPiece c full next := by
  have htest : ∀ x, (!decide (x ∉ delim.chars)) = decide (x = c) := by simp [hdelim]
  rw [← scan_dropWhile]
  constructor
  · intro hnone
    obtain ⟨_, hdrop⟩ := findFrom_eq_none hnone
    simp only [htest] at hdrop
    rw [hdrop]
    rfl
  · intro next hsome
    obtain ⟨_, _, _, hdrop⟩ := findFrom_eq_some hsome
    obtain ⟨x, rest, hx, hout⟩ := findFrom_passes hsome
    simp only [htest] at hdrop
    rw [hdrop]
    exact ⟨rfl, x, rest, hx, by simpa [hdelim] using hout⟩

/-- With one delimiter the index loop takes the same pieces. -/
theorem indexLoop_eq (hdelim : delim.chars = [c]) {beginIndex : Nat} {result : List Str}
    (hbegin : BeginsPiece c full beginIndex) :
    indexLoop full delim beginIndex result = result ++ scan c (full.drop beginIndex) none := by
  induction beginIndex, result using indexLoop.induct full delim with
  | case1 beginIndex result hend =>
      rw [(scan_findFirstOf hdelim hbegin).1 hend, indexLoop]
      split
      · rfl
      · simp_all
  | case2 beginIndex result endIndex hend hnext =>
      rw [(scan_findFirstOf hdelim hbegin).2 endIndex hend,
        (scan_findFirstNotOf hdelim endIndex).1 hnext, indexLoop]
      split
      · simp_all
      · split
        · simp_all
        · simp_all
  | case3 beginIndex result endIndex hend next hnext ih =>
      obtain ⟨hscan, hnextBegin⟩ := (scan_findFirstNotOf hdelim endIndex).2 next hnext
      rw [(scan_findFirstOf hdelim hbegin).2 endIndex hend, hscan, indexLoop]
      split
      · simp_all
      · split
        · simp_all
        · simp_all

theorem delimiterSetLoop_eq (hdelim : delim.chars = [c]) (full : Str) (result : List Str) :
    delimiterSetLoop full delim result = result ++ scan c full none := by
  rw [delimiterSetLoop]
  cases hfirst : findFirstNotOf full delim 0 with
  | none =>
      have hscan := (scan_findFirstNotOf hdelim 0).1 hfirst
      rw [List.drop_zero] at hscan
      rw [hscan, List.append_nil]
  | some beginIndex =>
      obtain ⟨hscan, hbegin⟩ := (scan_findFirstNotOf hdelim 0).2 beginIndex hfirst
      rw [List.drop_zero] at hscan
      rw [hscan]
      exact indexLoop_eq hdelim hbegin

theorem isSingle_of_chars (hdelim : delim.chars = [c]) :
    delim.isSingle = true ∧ delim.charAt 0 = c := by
  have hc : c ≠ '\x00' := by
    rintro rfl
    exact delim.noNul (by simp [hdelim])
  simp [CString.isSingle, CString.charAt, hdelim, hc]

theorem calculateReserveForVector_eq (hdelim : delim.chars = [c]) (full : Str) :
    calculateReserveForVector full delim = checked 31 (scan c full none).length := by
  obtain ⟨hsingle, hat⟩ := isSingle_of_chars hdelim
  rw [calculateReserveForVector, if_pos hsingle, hat, countLoop_eq c full 0 (by decide) (by decide),
    Int.zero_add]

/-- Where the count does not overflow, the call appends the pieces. -/
theorem splitStringUsing_eq (hdelim : delim.chars = [c]) (full : Str) (result : List Str) :
    splitStringUsing full delim result =
      (checked 31 (scan c full none).length).map fun _ => result ++ scan c full none := by
  obtain ⟨hsingle, hat⟩ := isSingle_of_chars hdelim
  rw [splitStringUsing, calculateReserveForVector_eq hdelim, splitStringToIteratorUsing,
    if_pos hsingle, hat, singleCharacterLoop_eq]

end SingleDelimiter

/-- What is expected of a call with one delimiter: the pieces are those of the
loop for delimiter sets, are not empty, hold no delimiter and are counted. -/
structure SplitsAlike (full : Str) (delim : CString) : Prop where
  alike : ∀ result,
    splitStringUsing full delim result = some (delimiterSetLoop full delim result)
  nonempty : ∀ piece ∈ delimiterSetLoop full delim [], piece ≠ []
  free : ∀ piece ∈ delimiterSetLoop full delim [], ∀ c ∈ delim.chars, c ∉ piece
  counted :
    calculateReserveForVector full delim = some ((delimiterSetLoop full delim []).length : Int)

theorem checked_natCast_eq_some_iff {n : Nat} : checked 31 (n : Int) = some (n : Int) ↔ n < 2 ^ 31 := by
  rw [checked_eq_some_iff]
  constructor
  · rintro ⟨⟨_, hlt⟩, _⟩
    omega
  · intro hlt
    exact ⟨⟨by omega, by omega⟩, rfl⟩

/-- The `int` that counts the pieces is the one limit of the fast path. -/
theorem splitsAlike_iff {full : Str} {delim : CString} {c : Char} (hdelim : delim.chars = [c]) :
    SplitsAlike full delim ↔ runStarts c c full < 2 ^ 31 := by
  rw [← (length_scan c full).1, ← checked_natCast_eq_some_iff]
  have hloop := delimiterSetLoop_eq hdelim full
  constructor
  · intro h
    have hcounted := h.counted
    rwa [calculateReserveForVector_eq hdelim, hloop, List.nil_append] at hcounted
  · intro hcount
    refine ⟨fun result => ?_, fun piece hpiece => ?_, fun piece hpiece c' hc' => ?_, ?_⟩
    · rw [splitStringUsing_eq hdelim, hcount, hloop]
      rfl
    · rw [hloop, List.nil_append] at hpiece
      exact ne_nil_of_mem_scan hpiece
    · rw [hloop, List.nil_append] at hpiece
      rw [hdelim, List.mem_singleton] at hc'
      rw [hc']
      exact not_mem_of_mem_scan (by simp) hpiece
    · rw [calculateReserveForVector_eq hdelim, hloop, List.nil_append]
      exact hcount

def semicolon : CString := ⟨[';'], by decide⟩

theorem members_splitsAlike : SplitsAlike ";a;;bc;".toList semicolon :=
  (splitsAlike_iff (c := ';') rfl).mpr (by decide)

theorem not_every_string_splitsAlike :
    ¬∀ (full : Str) (delim : CString) (c : Char), delim.chars = [c] → SplitsAlike full delim := by
  intro h
  have hcounted := (h ([';'].intercalate (List.replicate (2 ^ 31) ['a'])) semicolon ';' rfl).counted
  rw [calculateReserveForVector_eq (c := ';') rfl, delimiterSetLoop_eq (c := ';') rfl,
    List.nil_append, checked_natCast_eq_some_iff,
    scan_intercalate (fun x hx => by rw [List.eq_of_mem_replicate hx]; decide)
      (fun x hx => by rw [List.eq_of_mem_replicate hx]; decide),
    List.length_replicate] at hcounted
  exact absurd hcounted (lt_irrefl _)

end FastDCS.SplitString
