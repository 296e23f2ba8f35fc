import FastDCS.TokenWrites

/-!
Whether the table of `config_parse` depends on the file alone, or on what the
token buffer held before.
-/

namespace FastDCS.StaleBytes

open FastDCS.Strings
open FastDCS.Handlers
open FastDCS.ConfigFile
open FastDCS.ConfigGrammar
open FastDCS.ConfigContents
open FastDCS.TokenBuffer
open FastDCS.TokenWrites

/-- Two calls that return 0 leave the same table, whatever the memory of each. -/
def DependsOnlyOnFile (chunks : List (List Char)) : Prop :=
  ∀ (mem mem' : Memory) (table table' : Table), configParse mem (some chunks) = .ok table →
    configParse mem' (some chunks) = .ok table' → table = table'

/-- Wherever a newline in a quote enters a pair and there is a token behind the
last separator, one of the bytes that the text has had stored at the beginning of
the buffer is a NUL. -/
def Determined (text : Str) : Prop :=
  ∀ before behind, text = before ++ '\n' :: behind →
    (readingOf before).phase = .quoted → (readingOf before).got = true →
      ∀ k, (readingOf before).key = some k → k ∉ enteredKeys before →
        '\x00' ∈ (readingOf before).known

section Tables

variable {mem : Memory} {table table' : Table} {s : Reading}

/-- The table behind a newline where the known bytes of the buffer end in a NUL. -/
def enter (table : Table) (s : Reading) : Table :=
  match s.key.filter fun k => (configGet table k).isNone with
  | none => table
  | some k => table.probe ConfigPair.key
      { key := k, value := some (if s.got then cString s.known else []) }

theorem enters_eq (h : Enters mem table s table')
    (hnul : s.got = true → ∀ k, s.key = some k → configGet table k = none → '\x00' ∈ s.known) :
    table' = enter table s := by
  rw [Enters] at h
  rw [enter]
  cases hkey : s.key.filter fun k => (configGet table k).isNone with
  | none =>
      rw [hkey] at h
      exact h
  | some k =>
      rw [hkey] at h
      obtain ⟨token, value, hbehind, rfl, hvalue, hempty⟩ := h
      rw [Option.filter_eq_some_iff, Option.isNone_iff_eq_none] at hkey
      cases hgot : s.got with
      | false => rw [hempty hgot, if_neg Bool.false_ne_true]
      | true =>
          have hknown := hnul hgot k hkey.1 hkey.2
          obtain ⟨more, rfl⟩ := hbehind
          rw [hvalue (List.mem_append_left _ hknown) hgot, cString_append_of_mem hknown,
            if_pos rfl]

/-- Only within a quote may the token have lost its NUL. -/
theorem nul_mem_atNewline (hs : s.Sound) (hquoted : s.phase = .quoted → s.got = true →
    '\x00' ∈ s.known) (hgot : s.atNewline.got = true) : '\x00' ∈ s.atNewline.known := by
  rw [Reading.atNewline] at hgot ⊢
  split_ifs at hgot ⊢ with hunquoted
  · exact mem_overwrite
  · cases hphase : s.phase with
    | idle => exact hs.terminated hgot (Or.inl hphase)
    | comment => exact hs.terminated hgot (Or.inr hphase)
    | quoted => exact hquoted hphase hgot
    | unquoted => exact absurd hphase hunquoted

theorem Determined.of_append {before behind : Str} (h : Determined (before ++ behind)) :
    Determined before := by
  intro first rest heq
  refine h first (rest ++ behind) ?_
  rw [heq, List.append_assoc]
  rfl

/-- A text that is determined gives the same table in all memories. -/
theorem exists_table {text : Str} (h : Determined text) : ∃ table, ∀ mem,
    Ensures (scan mem text) (startParser mem) (fun _ m => m.table = table) fun _ => True := by
  induction text using List.reverseRecOn with
  | nil => exact ⟨.leaf, fun mem => rfl⟩
  | append_singleton before c ih =>
      obtain ⟨table, htable⟩ := ih h.of_append
      refine ⟨if c = '\n' then enter table (readingOf before).atNewline else table,
        fun mem => ?_⟩
      have hsound := sound_foldl Reading.sound_start before
      rw [ensures_scan_append]
      refine (((ensures_scan_at trivial Reading.sound_start (Or.inl trivial)
        (at_start mem)).and (htable mem)).and (ensures_scan_keys mem before)).imp ?_
      rintro _ m ⟨⟨⟨_, hat⟩, rfl⟩, hkeys⟩
      rw [ensures_scan_cons]
      refine (ensures_turns_at trivial hsound (Or.inl trivial) hat c).imp ?_
      rintro _ m' ⟨table', hturned, hnext⟩
      change m'.table = _
      rw [hnext.table_eq]
      rw [Turned] at hturned
      split_ifs at hturned ⊢ with hc
      · refine enters_eq hturned fun hgot k hk hnone => ?_
        rw [key_atNewline] at hk
        refine nul_mem_atNewline hsound (fun hquoted hgot => ?_) hgot
        refine h before [] (by rw [hc]) hquoted hgot k hk fun hmem => ?_
        rw [← hsound.key k hk, ← hkeys, hnone] at hmem
        cases hmem
      · exact hturned

theorem length_known_readingOf (text : Str) : (readingOf text).known.length ≤ text.length := by
  induction text using List.reverseRecOn with
  | nil => exact le_rfl
  | append_singleton before c ih =>
      have hnext := Reading.length_known_next (sound_foldl Reading.sound_start before) c
      rw [readingOf] at ih ⊢
      rw [List.foldl_append, List.length_append, List.length_singleton]
      exact hnext.trans (Nat.succ_le_succ ih)

end Tables

section Values

variable {mem : Memory} {chunks : List (List Char)}

/-- A call returns 0 where no allocation fails and there is room for the text. -/
theorem configParse_returns (hmem : ∀ n, mem.fails n = false) {P : Table → Prop}
    (h : Ensures (scan mem chunks.flatten) (startParser mem) (fun _ m => P m.table)
      (· = .outOfMemory)) : ∃ table, configParse mem (some chunks) = .ok table ∧ P table := by
  have havailable := available_scan hmem chunks.flatten (startParser mem)
  rw [← ensures_scanChunks] at h havailable
  rw [configParse, hmem, hmem, hmem]
  cases hrun : (scanChunks mem chunks).run (startParser mem) with
  | error fault => exact absurd (h.of_run_eq_error hrun) (havailable.of_run_eq_error hrun)
  | ok r => exact ⟨r.2.table, rfl, h.of_run_eq_ok hrun⟩

/-- The value of a pair that a newline in a quote enters. -/
theorem exists_value (hmem : ∀ n, mem.fails n = false) {before behind : Str}
    (htext : chunks.flatten = before ++ '\n' :: behind) (hample : Ample mem chunks.flatten.length)
    (hquoted : (readingOf before).phase = .quoted) (hgot : (readingOf before).got = true) {k : Str}
    (hk : (readingOf before).key = some k) (hnew : k ∉ enteredKeys before) :
    ∃ table, configParse mem (some chunks) = .ok table ∧ ∃ token,
      Behind mem (readingOf before).known token ∧ configGet table k = some (cString token) := by
  have hlength : chunks.flatten.length = before.length + (behind.length + 1) := by
    rw [htext, List.length_append, List.length_cons]
  have hsound : (readingOf before).Sound := sound_foldl Reading.sound_start before
  have hknown : (readingOf before).known.length ≤ before.length := length_known_readingOf before
  refine configParse_returns hmem ?_
  rw [htext, ensures_scan_append]
  have hstart : Ample mem (({} : Reading).known.length + before.length) := by
    refine hample.mono ?_
    rw [List.length_nil]
    omega
  refine ((ensures_scan_at (E := (· = .outOfMemory)) rfl Reading.sound_start (Or.inr hstart)
    (at_start mem)).and_frame (ensures_scan_keys mem before)).imp ?_
  rintro _ m ⟨⟨_, hat⟩, hkeys⟩
  have hnone : configGet m.table k = none := by
    rw [← Option.not_isSome_iff_eq_none, hkeys, hsound.key k hk]
    exact hnew
  rw [ensures_scan_cons]
  refine (ensures_turns_at (E := (· = .outOfMemory)) rfl hsound (Or.inr (hample.mono (by omega)))
    hat '\n').imp ?_
  rintro _ m' ⟨table, hturned, hnext⟩
  have hentered : ∃ token, Behind mem (readingOf before).known token ∧
      configGet table k = some (cString token) := by
    rw [Turned, if_pos rfl, Reading.atNewline, if_neg (by rw [hquoted]; decide), Enters, hk,
      Option.filter_some, if_pos (by rw [hnone]; rfl)] at hturned
    obtain ⟨token, value, hbehind, rfl, hvalue, _⟩ := hturned
    refine ⟨token, hbehind, ?_⟩
    have hnul := nul_mem_of_ample (hample.mono (by omega)) hbehind
    have hkey : cString k = k := hsound.key k hk
    have hprobe : configGet (m.table.probe _ { key := cString k, value := some value }) k = _ :=
      configGet_probe hat.valued hnone k
    rw [hkey, if_pos rfl] at hprobe
    rw [← hvalue hnul hgot]
    exact hprobe
  have hlast := Reading.length_known_next hsound '\n'
  refine (ensures_scan_at (E := (· = .outOfMemory)) rfl (hsound.next '\n')
    (Or.inr (hample.mono (by omega))) hnext).imp ?_
  rintro _ m'' ⟨hextends, _⟩
  obtain ⟨token, hbehind, hget⟩ := hentered
  exact ⟨token, hbehind, hextends k _ hget⟩

/-- Memory that begins with so many bytes of its own. -/
def filledMemory (n : Nat) : Memory where
  fails _ := false
  slack := n
  byte i := if i < n then 'x' else '\x00'

theorem ample_filledMemory (n : Nat) : Ample (filledMemory n) n :=
  ⟨Nat.lt_add_of_pos_left (by decide), if_neg (Nat.not_lt.mpr (Nat.le_sub_one_of_lt
    (Nat.lt_add_of_pos_left (by decide))))⟩

theorem cString_append {known : List Char} (h : '\x00' ∉ known) (rest : List Char) :
    cString (known ++ rest) = known ++ cString rest := by
  rw [cString, List.takeWhile_append_of_pos]
  · rfl
  · intro c hc
    exact decide_eq_true fun heq => h (heq ▸ hc)

/-- The first byte behind the known ones is the memory's own. -/
theorem cString_of_behind {known token : List Char} (h : Behind mem known token)
    (hnul : '\x00' ∉ known) (hlt : known.length < configTokSize + mem.slack) :
    ∃ more, cString token = known ++ cString (mem.byte known.length :: more) := by
  obtain ⟨more, rfl⟩ := h
  rw [cString_append hnul, startParser, List.drop_eq_getElem_cons (by simpa using hlt),
    List.cons_append, List.getElem_map, List.getElem_range]
  exact ⟨_, rfl⟩

/-- The table depends on the file alone exactly where no pair is entered with
bytes that nothing of the file was stored in. -/
theorem dependsOnlyOnFile_iff (chunks : List (List Char)) :
    DependsOnlyOnFile chunks ↔ Determined chunks.flatten := by
  constructor
  · intro hall before behind htext hquoted hgot k hk hnew
    by_contra hnul
    have hknown : (readingOf before).known.length ≤ before.length := length_known_readingOf before
    have hlength : chunks.flatten.length = before.length + (behind.length + 1) := by
      rw [htext, List.length_append, List.length_cons]
    have hlt : (readingOf before).known.length < chunks.flatten.length := by omega
    obtain ⟨table, hrun, token, hbehind, hget⟩ := exists_value
      (fun _ => rfl) htext (ample_ampleMemory _) hquoted hgot hk hnew
    obtain ⟨table', hrun', token', hbehind', hget'⟩ := exists_value
      (fun _ => rfl) htext (ample_filledMemory _) hquoted hgot hk hnew
    obtain ⟨more, hvalue⟩ := cString_of_behind hbehind hnul (Nat.lt_add_left _ hlt)
    obtain ⟨more', hvalue'⟩ := cString_of_behind hbehind' hnul (Nat.lt_add_left _ hlt)
    rw [hall _ _ _ _ hrun hrun', hget', hvalue, hvalue', Option.some_inj,
      List.append_cancel_left_eq] at hget
    have hbyte : (filledMemory chunks.flatten.length).byte (readingOf before).known.length = 'x' :=
      if_pos hlt
    rw [hbyte] at hget
    exact absurd hget (by simp [cString, ampleMemory])
  · intro h mem mem' table table' hrun hrun'
    obtain ⟨common, hcommon⟩ := exists_table h
    have htable : ∀ {mem table}, configParse mem (some chunks) = .ok table → table = common := by
      intro mem table hrun
      have hspec := configParse_spec (E := fun _ => True) (P := (· = common)) trivial (hcommon mem)
      rw [hrun] at hspec
      exact hspec
    rw [htable hrun, htable hrun']

/-- The quote left open overwrites the token before it, and its NUL byte. -/
theorem not_every_file_determines : ¬∀ chunks, DependsOnlyOnFile chunks := by
  intro hall
  have hget : ((configParse (ampleMemory 0) (some ["k = a \"bc\n".toList])).toOption.map
      (configGet · ['k'])) = some (some ['b', 'c']) := by
    decide +kernel
  have hget' : ((configParse (filledMemory 3) (some ["k = a \"bc\n".toList])).toOption.map
      (configGet · ['k'])) = some (some ['b', 'c', 'x']) := by
    decide +kernel
  cases hrun : configParse (ampleMemory 0) (some ["k = a \"bc\n".toList]) with
  | error fault =>
      rw [hrun] at hget
      cases hget
  | ok table =>
      cases hrun' : configParse (filledMemory 3) (some ["k = a \"bc\n".toList]) with
      | error fault =>
          rw [hrun'] at hget'
          cases hget'
      | ok table' =>
          rw [hrun] at hget
          rw [hrun', ← hall _ _ _ _ _ hrun hrun'] at hget'
          have hsame := hget.symm.trans hget'
          exact absurd hsame (by decide)

end Values

end FastDCS.StaleBytes
