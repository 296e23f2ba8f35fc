import FastDCS.ConfigGrammar

/-!
What a configuration file defines, line by line, and what `config_get` finds
after `config_parse` has read the file.
-/

namespace FastDCS.ConfigContents

open FastDCS.Strings
open FastDCS.Handlers
open FastDCS.ConfigFile
open FastDCS.ConfigGrammar

section Lines

variable {mem : Memory} {table table' : Table} {m : Parser} {E : Fault → Prop}

/-- What the pieces of a line leave to the newline. -/
theorem foldl_add (table : Table) (pieces : List Lexeme) :
    pieces.foldl (Pending.add table) {} =
      { got := valueToken pieces
        pair := (keptToken pieces).filter fun w => (configGet table w).isNone } := by
  induction pieces using List.reverseRecOn with
  | nil => rfl
  | append_singleton pieces piece ih =>
      rw [List.foldl_append, ih]
      cases piece <;>
        simp [Pending.add, valueToken, keptToken, lastToken, List.findSome?, Lexeme.token?]

/-- The table from what a line enters. -/
theorem entered_configGet {pieces : List Lexeme} {closed : Prop} (hvalued : Valued table)
    (h : Entered table (pieces.foldl (Pending.add table) {}) closed table') :
    Valued table' ∧ ∃ value, (closed → value = cString ((valueToken pieces).getD [])) ∧
      ∀ key, ConfigFile.configGet table' key = (ConfigFile.configGet table key).or
        (if (keptToken pieces).map cString = some (cString key) then some value else none) := by
  rw [foldl_add, Entered] at h
  cases hkept : keptToken pieces with
  | none =>
      rw [hkept] at h
      obtain rfl : table' = table := h
      exact ⟨hvalued, _, fun _ => rfl, fun key => Option.or_none.symm⟩
  | some w =>
      rw [hkept, Option.filter_some] at h
      cases hget : ConfigFile.configGet table w with
      | none =>
          rw [hget, if_pos (by rfl)] at h
          obtain ⟨value, rfl, hvalue⟩ := h
          refine ⟨hvalued.probe _ _, value, hvalue, fun key => ?_⟩
          rw [configGet_probe hvalued hget]
          simp only [Option.map_some, Option.some.injEq]
          by_cases heq : cString key = cString w
          · rw [if_pos heq, if_pos heq.symm, ← configGet_cString table key, heq,
              configGet_cString, hget, Option.none_or]
          · rw [if_neg heq, if_neg (Ne.symm heq), Option.or_none]
      | some old =>
          rw [hget, if_neg (by simp)] at h
          obtain rfl : table' = table := h
          refine ⟨hvalued, _, fun _ => rfl, fun key => ?_⟩
          simp only [Option.map_some, Option.some.injEq]
          by_cases heq : cString w = cString key
          · rw [← configGet_cString table' key, ← heq, configGet_cString, hget, Option.some_or]
          · rw [if_neg heq, Option.or_none]

/-- The tables before and after some lines have been read. -/
inductive LinesRead : List (List Char) → Table → Table → Prop where
  | nil (table : Table) : LinesRead [] table table
  | cons {line : List Char} {rest : List (List Char)} {table table' table'' : Table}
      (entered : Entered table ((lexemes line).foldl (Pending.add table) {})
        (.unclosed ∉ lexemes line) table')
      (read : LinesRead rest table' table'') : LinesRead (line :: rest) table table''

def terminated (lines : List (List Char)) : List Char := (lines.map (· ++ ['\n'])).flatten

theorem ensures_scan_terminated (hmem : E .outOfMemory) {lines : List (List Char)}
    (hlines : ∀ line ∈ lines, '\n' ∉ line)
    (hread : E .overrun ∨ ∀ line ∈ lines, Readable (lexemes line))
    (hm : Represents table {} m) (hstate : m.state = .initial) :
    Ensures (scan mem (terminated lines)) m (fun _ m' =>
      LinesRead lines table m'.table ∧ m'.state = .initial) E := by
  induction lines generalizing table m with
  | nil =>
      refine ⟨?_, hstate⟩
      rw [hm.table]
      exact .nil table
  | cons line rest ih =>
      have hreadRest : E .overrun ∨ ∀ line ∈ rest, Readable (lexemes line) :=
        hread.imp id fun h line hmem => h line (List.mem_cons_of_mem _ hmem)
      rw [terminated, List.map_cons, List.flatten_cons, ensures_scan_append]
      refine (ensures_scan_line hmem (hlines line List.mem_cons_self)
        (hread.imp id fun h => h line List.mem_cons_self) hm hstate).imp fun _ m' h => ?_
      obtain ⟨⟨table', hentered, hrep⟩, hinitial⟩ := h
      refine (ih (fun line hmem => hlines line (List.mem_cons_of_mem _ hmem)) hreadRest hrep
        hinitial).imp fun _ m'' h => ?_
      exact ⟨.cons hentered h.1, h.2⟩

/-- A key is in the table exactly where a line has entered it. -/
theorem LinesRead.isSome_iff {lines : List (List Char)} (h : LinesRead lines table table')
    (hvalued : Valued table) (key : Str) :
    (configGet table' key).isSome = true ↔ (configGet table key).isSome = true ∨
      ∃ line ∈ lines, (keptToken (lexemes line)).map cString = some (cString key) := by
  induction h with
  | nil table => simp
  | cons entered read ih =>
      obtain ⟨hvalued', value, _, hget⟩ := entered_configGet hvalued entered
      rw [ih hvalued', hget key, List.exists_mem_cons_iff, ← or_assoc]
      refine or_congr_left ?_
      rw [Option.isSome_or]
      split_ifs with heq <;> simp [heq]

/-- The first line with a key decides on its value. -/
theorem LinesRead.configGet {lines : List (List Char)} (h : LinesRead lines table table')
    (hvalued : Valued table) (hclosed : ∀ line ∈ lines, .unclosed ∉ lexemes line)
    (key : Str) :
    ConfigFile.configGet table' key = (ConfigFile.configGet table key).or
      ((lines.filterMap fun line => (keptToken (lexemes line)).map fun w =>
        (cString w, cString ((valueToken (lexemes line)).getD []))).lookup (cString key)) := by
  induction h with
  | nil table => simp
  | @cons line rest table table' table'' entered read ih =>
      obtain ⟨hvalued', value, hvalue, hget⟩ := entered_configGet hvalued entered
      rw [ih hvalued' fun line hmem => hclosed line (List.mem_cons_of_mem _ hmem), hget key,
        Option.or_assoc]
      congr 1
      rw [hvalue (hclosed line List.mem_cons_self)]
      cases hkept : keptToken (lexemes line) with
      | none => simp [hkept]
      | some w =>
          simp only [hkept, List.filterMap_cons, Option.map_some, Option.some.injEq,
            List.lookup_cons]
          by_cases heq : cString w = cString key
          · rw [if_pos heq, heq, beq_self_eq_true, Option.some_or]
          · rw [if_neg heq, Option.none_or, beq_false_of_ne (Ne.symm heq)]

end Lines

section SingleSeparators

theorem mem_of_mem_token {line : List Char} {w : Str} (h : .token w ∈ lexemes line) {c : Char}
    (hc : c ∈ w) : c ∈ line := by
  fun_induction lexemes line with
  | case1 => cases h
  | case2 rest => cases h
  | case3 rest hopen => simp at h
  | case4 rest head rest' hclose hhash ih =>
      rcases List.mem_cons.mp h with heq | hmem
      · obtain rfl := Lexeme.token.inj heq
        exact List.mem_cons_of_mem _ (List.takeWhile_subset _ hc)
      · have hrest : c ∈ rest.dropWhile (· ≠ '"') := hclose ▸ List.mem_cons_of_mem head (ih hmem)
        exact List.mem_cons_of_mem _ ((List.dropWhile_suffix _).subset hrest)
  | case5 rest hhash hquote ih =>
      have hmem := List.mem_of_ne_of_mem (by simp) h
      exact List.mem_cons_of_mem _ (ih hmem)
  | case6 c' rest hhash hquote hsep hspace ih => exact List.mem_cons_of_mem _ (ih h)
  | case7 c' rest hhash hquote hsep hspace ih =>
      rcases List.mem_cons.mp h with heq | hmem
      · obtain rfl := Lexeme.token.inj heq
        exact List.cons_subset_cons c' (List.takeWhile_subset _) hc
      · exact List.mem_cons_of_mem _ ((List.dropWhile_suffix plain).subset (ih hmem))

theorem token_mem_of_lastToken {pieces : List Lexeme} {w : Str} (h : lastToken pieces = some w) :
    .token w ∈ pieces := by
  obtain ⟨piece, hmem, htoken⟩ := List.exists_of_findSome?_eq_some h
  cases piece with
  | token text =>
      obtain rfl := Option.some.inj htoken
      exact hmem
  | unclosed => cases htoken
  | sep => cases htoken

theorem ne_sep {pieces : List Lexeme} (h : .sep ∉ pieces) :
    ∀ piece ∈ pieces, decide (piece ≠ .sep) = true :=
  fun _ hmem => decide_eq_true fun heq => h (heq ▸ hmem)

/-- Where there is one separator at most, no other one replaces its key. -/
theorem keptToken_eq_keyToken {pieces : List Lexeme} (h : pieces.count .sep ≤ 1) :
    keptToken pieces = keyToken pieces := by
  by_cases hsep : Lexeme.sep ∈ pieces
  · obtain ⟨before, behind, rfl, hbefore⟩ := List.eq_append_cons_of_mem hsep
    have hbehind : Lexeme.sep ∉ behind := by
      rw [List.count_append, List.count_cons_self] at h
      exact List.count_eq_zero.mp (by omega)
    have hreverse : (before ++ .sep :: behind).reverse =
        behind.reverse ++ .sep :: before.reverse := by simp
    have hself : before.reverse.takeWhile (· ≠ .sep) = before.reverse :=
      List.takeWhile_eq_self_iff.mpr (ne_sep (by simpa using hbefore))
    have hkept : (before ++ .sep :: behind).reverse.dropWhile (· ≠ .sep) =
        .sep :: before.reverse := by
      rw [hreverse, List.dropWhile_append_of_pos (ne_sep (by simpa using hbehind))]
      rfl
    have hkey : (before ++ .sep :: behind).dropWhile (· ≠ .sep) = .sep :: behind := by
      rw [List.dropWhile_append_of_pos (ne_sep hbefore)]
      rfl
    have hfirst : (before ++ .sep :: behind).takeWhile (· ≠ .sep) = before := by
      rw [List.takeWhile_append_of_pos (ne_sep hbefore)]
      exact List.append_nil before
    rw [keptToken, keyToken, hkept, hkey]
    dsimp only
    rw [hself, hfirst]
  · have hkept : pieces.reverse.dropWhile (· ≠ .sep) = [] :=
      List.dropWhile_eq_nil_iff.mpr (ne_sep (by simpa using hsep))
    have hkey : pieces.dropWhile (· ≠ .sep) = [] := List.dropWhile_eq_nil_iff.mpr (ne_sep hsep)
    rw [keptToken, keyToken, hkept, hkey]

theorem token_mem_of_keyToken {pieces : List Lexeme} {w : Str} (h : keyToken pieces = some w) :
    .token w ∈ pieces := by
  rw [keyToken] at h
  split at h
  · cases h
  · have hmem := List.mem_reverse.mp (token_mem_of_lastToken h)
    exact List.takeWhile_subset _ hmem

theorem token_mem_of_valueToken {pieces : List Lexeme} {w : Str} (h : valueToken pieces = some w) :
    .token w ∈ pieces := by
  have hmem := List.takeWhile_subset _ (token_mem_of_lastToken h)
  exact List.mem_reverse.mp hmem

/-- A line with one separator at most enters what it defines. -/
theorem definition_eq {line : List Char} (hline : '\x00' ∉ line)
    (hsep : (lexemes line).count .sep ≤ 1) :
    ((keptToken (lexemes line)).map fun w =>
      (cString w, cString ((valueToken (lexemes line)).getD []))) = definition line := by
  have htoken : ∀ w, .token w ∈ lexemes line → cString w = w := fun w hw =>
    cString_of_not_mem fun hmem => hline (mem_of_mem_token hw hmem)
  have hvalue : cString ((valueToken (lexemes line)).getD []) =
      (valueToken (lexemes line)).getD [] := by
    cases hlast : valueToken (lexemes line) with
    | none => rfl
    | some w => exact htoken w (token_mem_of_valueToken hlast)
  rw [definition, keptToken_eq_keyToken hsep]
  cases hkey : keyToken (lexemes line) with
  | none => rfl
  | some w => rw [Option.map_some, Option.map_some, hvalue, htoken w (token_mem_of_keyToken hkey)]

end SingleSeparators

section Definitions

variable {mem : Memory}

/-- A line of the grammar: its quotes are closed, its tokens fit in the buffer,
and there is one separator at most. -/
structure WellFormed (line : List Char) : Prop where
  newline : '\n' ∉ line
  nul : '\x00' ∉ line
  seps : (lexemes line).count .sep ≤ 1
  readable : Readable (lexemes line)

instance (line : List Char) : Decidable (WellFormed line) :=
  decidable_of_iff (('\n' ∉ line ∧ '\x00' ∉ line) ∧ (lexemes line).count .sep ≤ 1 ∧
      Readable (lexemes line))
    ⟨fun h => ⟨h.1.1, h.1.2, h.2.1, h.2.2⟩, fun h => ⟨⟨h.newline, h.nul⟩, h.seps, h.readable⟩⟩

theorem startParser_represents (mem : Memory) : Represents .leaf {} (startParser mem) := by
  refine ⟨?_, rfl, rfl, fun w hw => (by cases hw), rfl⟩
  rw [startParser, List.length_map, List.length_range]
  exact Nat.le_add_right _ _

/-- Such a file is read as its definitions say, and only a failing allocation stops that. -/
theorem configParse_terminated (mem : Memory) {lines chunks : List (List Char)}
    (hlines : ∀ line ∈ lines, WellFormed line) (hchunks : chunks.flatten = terminated lines) :
    match configParse mem (some chunks) with
    | .ok table => ∀ key,
        configGet table key = (lines.filterMap definition).lookup (cString key)
    | .error fault => fault = .outOfMemory := by
  refine configParse_spec (E := (· = .outOfMemory)) rfl ?_
  rw [hchunks]
  refine (ensures_scan_terminated (E := (· = .outOfMemory)) rfl
    (fun line h => (hlines line h).newline) (Or.inr fun line h => (hlines line h).readable)
    (startParser_represents mem) rfl).imp ?_
  rintro _ m ⟨hread, _⟩ key
  rw [hread.configGet valued_leaf (fun line h => (hlines line h).readable.1) key,
    configGet_leaf, Option.none_or]
  congr 1
  exact List.filterMap_congr fun line h => definition_eq (hlines line h).nul (hlines line h).seps

/-- However a file of such lines is cut into chunks, `config_get` finds what its
first line with the key defines. -/
theorem configGet_eq_lookup {lines chunks : List (List Char)} {table : Table}
    (hlines : ∀ line ∈ lines, WellFormed line) (hchunks : chunks.flatten = terminated lines)
    (hparse : configParse mem (some chunks) = .ok table) (key : Str) :
    configGet table key = (lines.filterMap definition).lookup (cString key) := by
  have hread := configParse_terminated mem hlines hchunks
  rw [hparse] at hread
  exact hread key

/-- An allocator that never fails and gives no byte more than it is asked for. -/
def exactMemory : Memory where
  fails _ := false
  slack := 0
  byte _ := 'x'

theorem first_line_found : ∃ table,
    configParse exactMemory (some ["k = \"a".toList, " b\" # c\nk=w\nd =".toList, "\n".toList]) =
      .ok table ∧
    configGet table "k".toList = some "a b".toList ∧ configGet table "d".toList = some [] ∧
    configGet table "c".toList = none := by
  have hlines : ∀ line ∈ ["k = \"a b\" # c".toList, "k=w".toList, "d =".toList],
      WellFormed line := by decide +kernel
  have hchunks : ["k = \"a".toList, " b\" # c\nk=w\nd =".toList, "\n".toList].flatten =
      terminated ["k = \"a b\" # c".toList, "k=w".toList, "d =".toList] := by decide +kernel
  have hparse : configParse exactMemory
      (some ["k = \"a".toList, " b\" # c\nk=w\nd =".toList, "\n".toList]) =
      .ok (.node (.node .leaf { key := "d".toList, value := some [] } .leaf)
        { key := "k".toList, value := some "a b".toList } .leaf) := by decide +kernel
  have hget := configGet_eq_lookup hlines hchunks hparse
  refine ⟨_, hparse, (hget _).trans ?_, (hget _).trans ?_, (hget _).trans ?_⟩
  · decide +kernel
  · decide +kernel
  · decide +kernel

end Definitions

section Remainders

variable {mem : Memory}

/-- The newline-terminated lines of a text, and what is behind its last newline. -/
def splitLines : List Char → List (List Char) × List Char
  | [] => ([], [])
  | c :: rest =>
      if c = '\n' then ([] :: (splitLines rest).1, (splitLines rest).2)
      else
        match splitLines rest with
        | ([], last) => ([], c :: last)
        | (line :: lines, last) => ((c :: line) :: lines, last)

theorem terminated_splitLines (text : List Char) :
    terminated (splitLines text).1 ++ (splitLines text).2 = text := by
  fun_induction splitLines text with
  | case1 => rfl
  | case2 rest ih =>
      rw [terminated, List.map_cons, List.flatten_cons, List.nil_append, List.append_assoc,
        List.singleton_append]
      exact congrArg ('\n' :: ·) ih
  | case3 c rest hc last hsplit ih =>
      rw [hsplit] at ih
      exact congrArg (c :: ·) ih
  | case4 c rest hc line lines last hsplit ih =>
      rw [hsplit] at ih
      exact congrArg (c :: ·) ih

theorem newline_not_mem_splitLines (text : List Char) :
    (∀ line ∈ (splitLines text).1, '\n' ∉ line) ∧ '\n' ∉ (splitLines text).2 := by
  fun_induction splitLines text with
  | case1 => simp
  | case2 rest ih => simpa using ih
  | case3 c rest hc last hsplit ih =>
      rw [hsplit] at ih
      refine ⟨by simp, ?_⟩
      simpa [Ne.symm hc] using ih.2
  | case4 c rest hc line lines last hsplit ih =>
      rw [hsplit] at ih
      simpa [Ne.symm hc] using ih

/-- The keys that the lines of a text give, the last one of which ends with the text. -/
def givenKeys (text : List Char) : List Str :=
  ((splitLines text).1 ++ [(splitLines text).2]).filterMap fun line => keyToken (lexemes line)

/-- The keys that newlines enter. -/
def enteredKeys (text : List Char) : List Str :=
  (splitLines text).1.filterMap fun line => (keptToken (lexemes line)).map cString

/-- The keys in the table are the ones that newlines have entered. -/
theorem ensures_scan_keys (mem : Memory) (text : List Char) :
    Ensures (scan mem text) (startParser mem) (fun _ m => ∀ key,
      (configGet m.table key).isSome = true ↔ cString key ∈ enteredKeys text) fun _ => True := by
  obtain ⟨hlines, hlast⟩ := newline_not_mem_splitLines text
  have hread : Ensures (scan mem text) (startParser mem)
      (fun _ m => LinesRead (splitLines text).1 .leaf m.table) fun _ => True := by
    nth_rewrite 1 [← terminated_splitLines text]
    rw [ensures_scan_append]
    refine (ensures_scan_terminated trivial hlines (Or.inl trivial)
      (startParser_represents mem) rfl).imp ?_
    rintro _ m ⟨hread, hstate⟩
    refine (ensures_scan_frame (by simp [hstate]) hlast).imp fun _ m' htable => ?_
    rw [htable]
    exact hread
  refine hread.imp fun _ m hm key => ?_
  rw [LinesRead.isSome_iff hm valued_leaf, configGet_leaf, enteredKeys, List.mem_filterMap]
  simp

theorem isSome_configGet_iff {chunks : List (List Char)} {table : Table}
    (hparse : configParse mem (some chunks) = .ok table) (key : Str) :
    (configGet table key).isSome = true ↔ cString key ∈ enteredKeys chunks.flatten := by
  have hkeys := configParse_spec (P := fun table => ∀ key,
    (configGet table key).isSome = true ↔ cString key ∈ enteredKeys chunks.flatten) trivial
    (ensures_scan_keys mem chunks.flatten)
  rw [hparse] at hkeys
  exact hkeys key

/-- Of the keys that its lines give, a file keeps the ones that newlines enter. -/
theorem kept_iff_entered {chunks : List (List Char)} {table : Table}
    (hparse : configParse mem (some chunks) = .ok table) :
    ∀ k ∈ givenKeys chunks.flatten,
      ((configGet table k).isSome = true ↔ cString k ∈ enteredKeys chunks.flatten) :=
  fun k _ => isSome_configGet_iff hparse k

theorem terminated_kept : ∃ table,
    configParse exactMemory (some ["k ".toList, "= v\n".toList]) = .ok table ∧
      (configGet table "k".toList).isSome = true := by
  have hparse : configParse exactMemory (some ["k ".toList, "= v\n".toList]) =
      .ok (.node .leaf { key := "k".toList, value := some "v".toList } .leaf) := by decide +kernel
  exact ⟨_, hparse, (kept_iff_entered hparse _ (by decide +kernel)).mpr (by decide +kernel)⟩

/-- Lines with one separator at most that all end in a newline keep their keys. -/
theorem entered_of_given {text : List Char}
    (hlast : keyToken (lexemes (splitLines text).2) = none)
    (hseps : ∀ line ∈ (splitLines text).1, (lexemes line).count .sep ≤ 1) {k : Str}
    (hgiven : k ∈ givenKeys text) : cString k ∈ enteredKeys text := by
  obtain ⟨line, hmem, hkey⟩ := List.mem_filterMap.mp hgiven
  rcases List.mem_append.mp hmem with hline | hline
  · refine List.mem_filterMap.mpr ⟨line, hline, ?_⟩
    rw [keptToken_eq_keyToken (hseps line hline), hkey]
    rfl
  · obtain rfl := List.mem_singleton.mp hline
    rw [hlast] at hkey
    cases hkey

/-- The pair of a last line that the file ends in is freed, and a second separator
replaces the pair of the first. -/
theorem definitions_dropped :
    (∃ table, configParse exactMemory (some ["k = v".toList]) = .ok table ∧
      "k".toList ∈ givenKeys "k = v".toList ∧ configGet table "k".toList = none) ∧
    ∃ table, configParse exactMemory (some ["a = b = c\n".toList]) = .ok table ∧
      "a".toList ∈ givenKeys "a = b = c\n".toList ∧ configGet table "a".toList = none := by
  refine ⟨⟨.leaf, by decide +kernel, by decide +kernel, by decide +kernel⟩, ?_⟩
  exact ⟨.node .leaf { key := "b".toList, value := some "c".toList } .leaf, by decide +kernel,
    by decide +kernel, by decide +kernel⟩

end Remainders

end FastDCS.ConfigContents
