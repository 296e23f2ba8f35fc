import FastDCS.ConfigFile

/-!
The pieces of a line of a configuration file, and that the character machine
reads a line as its pieces say.
-/

namespace FastDCS.ConfigGrammar

open FastDCS.Strings
open FastDCS.Handlers
open FastDCS.SearchTrees
open FastDCS.ConfigFile

section Grammar

/-- A piece of a line; `unclosed` is a quote without its end. -/
inductive Lexeme where
  | token (text : Str)
  | unclosed
  | sep
deriving DecidableEq

def Lexeme.token? : Lexeme → Option Str
  | token text => some text
  | unclosed => none
  | sep => none

/-- A character inside an unquoted token. -/
def plain (c : Char) : Bool := !isSpace c && decide (c ≠ '=') && decide (c ≠ '#')

/-- The pieces of a line, up to its comment: separators, quoted strings, and
maximal runs of plain characters. -/
def lexemes : List Char → List Lexeme
  | [] => []
  | c :: rest =>
      if c = '#' then []
      else if c = '"' then
        match _h : rest.dropWhile (· ≠ '"') with
        | [] => [.unclosed]
        | _ :: rest' => .token (rest.takeWhile (· ≠ '"')) :: lexemes rest'
      else if c = '=' then .sep :: lexemes rest
      else if isSpace c then lexemes rest
      else .token (c :: rest.takeWhile plain) :: lexemes (rest.dropWhile plain)
termination_by line => line.length
decreasing_by
  all_goals simp_wf
  · have hle := (List.dropWhile_suffix (l := rest) fun c => decide (c ≠ '"')).length_le
    rw [_h] at hle
    simp only [List.length_cons] at hle
    omega
  · have hle := (List.dropWhile_suffix (l := rest) plain).length_le
    omega

/-- The last token of some pieces in reverse order. -/
def lastToken (reversed : List Lexeme) : Option Str := reversed.findSome? Lexeme.token?

/-- The last token before the first separator. -/
def keyToken (pieces : List Lexeme) : Option Str :=
  match pieces.dropWhile (· ≠ .sep) with
  | [] => none
  | _ :: _ => lastToken (pieces.takeWhile (· ≠ .sep)).reverse

/-- The last token before the last separator and behind the one before it. -/
def keptToken (pieces : List Lexeme) : Option Str :=
  match pieces.reverse.dropWhile (· ≠ .sep) with
  | [] => none
  | _ :: before => lastToken (before.takeWhile (· ≠ .sep))

/-- The last token behind the last separator, or behind none. -/
def valueToken (pieces : List Lexeme) : Option Str :=
  lastToken (pieces.reverse.takeWhile (· ≠ .sep))

/-- The key and the value that a line defines. -/
def definition (line : List Char) : Option (Str × Str) :=
  (keyToken (lexemes line)).map fun key => (key, (valueToken (lexemes line)).getD [])

end Grammar

section Reading

variable {mem : Memory} {table : Table} {m : Parser} {E : Fault → Prop}

/-- What is carried over from the pieces of a line that have been read: the last
token since the last separator and the key of the pair under construction. -/
structure Pending where
  got : Option Str := none
  pair : Option Str := none

/-- A separator makes a pair where its key is not in the table. -/
def Pending.add (table : Table) (p : Pending) : Lexeme → Pending
  | .token text => { p with got := some text }
  | .unclosed => p
  | .sep => { got := none, pair := p.got.filter fun w => (configGet table w).isNone }

structure Represents (table : Table) (p : Pending) (m : Parser) : Prop where
  sized : configTokSize ≤ m.token.length
  table : m.table = table
  gotTok : m.gotTok = p.got.isSome
  token : ∀ w, p.got = some w → HasToken m w
  pair : m.pair = p.pair.map fun w => { key := cString w }

/-- The pair of a line is in the table, with the last token as its value where
every quote is closed. -/
def Entered (table : Table) (p : Pending) (closed : Prop) (table' : Table) : Prop :=
  match p.pair with
  | none => table' = table
  | some w => ∃ value,
      table' = table.probe ConfigPair.key { key := cString w, value := some value } ∧
        (closed → value = cString (p.got.getD []))

/-- The parser behind a newline. -/
structure LineRead (table : Table) (p : Pending) (closed : Prop) (m : Parser) : Prop where
  represents : ∃ table', Entered table p closed table' ∧ Represents table' {} m
  state : m.state = .initial

/-- All that the pieces need to be read without leaving the token buffer. -/
def Readable (pieces : List Lexeme) : Prop :=
  .unclosed ∉ pieces ∧ ∀ piece ∈ pieces, ∀ w ∈ piece.token?, w.length < configTokSize

instance (pieces : List Lexeme) : Decidable (Readable pieces) := inferInstanceAs (Decidable (_ ∧ _))

theorem Readable.tail {piece : Lexeme} {pieces : List Lexeme} (h : Readable (piece :: pieces)) :
    Readable pieces :=
  ⟨fun hmem => h.1 (List.mem_cons_of_mem _ hmem), fun piece hmem =>
    h.2 piece (List.mem_cons_of_mem _ hmem)⟩

theorem lineRead_of_settled {p : Pending} {closed : Prop} {m' : Parser}
    (hsized : configTokSize ≤ m.token.length) (htable : m.table = table)
    (hpair : m.pair = p.pair.map fun w => { key := cString w })
    (hclosed : closed → Represents table p m) (h : Settled m m') : LineRead table p closed m' := by
  have hfresh : Represents m'.table {} m' := by
    refine ⟨?_, rfl, h.gotTok, fun w hw => (by cases hw), h.pair⟩
    rw [h.token]
    exact hsized
  refine ⟨⟨m'.table, ?_, hfresh⟩, h.state⟩
  have hsettled := h.table
  rw [hpair, htable] at hsettled
  rw [Entered]
  cases hp : p.pair with
  | none =>
      rw [hp] at hsettled
      exact hsettled
  | some w =>
      rw [hp] at hsettled
      obtain ⟨value, hprobe, htoken, hempty⟩ := hsettled
      refine ⟨value, hprobe, fun hc => ?_⟩
      have hm := hclosed hc
      cases hgot : p.got with
      | none => exact hempty (by rw [hm.gotTok, hgot]; rfl)
      | some w' => exact htoken w' (hm.token w' hgot) (by rw [hm.gotTok, hgot]; rfl)

theorem ensures_newline (hmem : E .outOfMemory) {p : Pending} (hm : Represents table p m) :
    Ensures (handleNewline mem) m (fun _ m' => LineRead table p True m') E := by
  refine (ensures_handleNewline hmem (Or.inr fun hgot => ?_)).imp fun _ m' h =>
    lineRead_of_settled hm.sized hm.table hm.pair (fun _ => hm) h
  rw [hm.gotTok] at hgot
  obtain ⟨w, hw⟩ := Option.isSome_iff_exists.mp hgot
  exact ⟨w, hm.token w hw⟩

/-- A newline in a quote ends the line with some value. -/
theorem ensures_newline_unclosed (hmem : E .outOfMemory) (hover : E .overrun) {p : Pending}
    (hsized : configTokSize ≤ m.token.length) (htable : m.table = table)
    (hpair : m.pair = p.pair.map fun w => { key := cString w }) :
    Ensures (handleNewline mem) m (fun _ m' => LineRead table p False m') E :=
  (ensures_handleNewline hmem (Or.inl hover)).imp fun _ _ h =>
    lineRead_of_settled hsized htable hpair False.elim h

/-- Reading a token to its end. -/
theorem Represents.token_read {p : Pending} (hm : Represents table p m) {m' : Parser} {w : Str}
    (htable : m'.table = m.table) (hpair : m'.pair = m.pair) {token : List Char}
    (htoken : HasToken { m' with gotTok := true, token := token } w) (state : ParseState) :
    Represents table { p with got := some w }
      { m' with gotTok := true, token := token, state := state } where
  sized := htoken.sized
  table := htable.trans hm.table
  gotTok := rfl
  token w' hw' := by
    obtain rfl := Option.some.inj hw'
    exact ⟨htoken.written, htoken.sized⟩
  pair := hpair.trans hm.pair

theorem Represents.goTo {p : Pending} (hm : Represents table p m) (state : ParseState) (t : Nat) :
    Represents table p { m with t := t, state := state } :=
  ⟨hm.sized, hm.table, hm.gotTok, fun w hw => ⟨(hm.token w hw).written, hm.sized⟩, hm.pair⟩

theorem plain_newline : plain '\n' = false := by decide

theorem Represents.sep {p : Pending} (hm : Represents table p m) (n : Nat) :
    Represents table (p.add table .sep) { m with
      pair := (p.got.filter fun w => (configGet m.table w).isNone).map fun w =>
        { key := cString w }
      gotTok := false, state := .initial, allocations := n } := by
  refine ⟨hm.sized, hm.table, rfl, fun w hw => (by cases hw), ?_⟩
  rw [hm.table]
  rfl

/-- The character behind an unquoted token ends it and is read as at the start. -/
theorem ensures_scan_unquoted_end {p : Pending} (hm : Represents table p m) {m' : Parser}
    (hkeeps : Keeps { m with state := .unquoted } m') {w : Str} (hw : Writing m' w)
    (hne : w ≠ []) (hover : E .overrun ∨ w.length < configTokSize) {c : Char}
    (hc : plain c = false) {rest : List Char} {Q : PUnit → Parser → Prop}
    (h : ∀ m'', Represents table { p with got := some w } m'' → m''.state = .initial →
      Ensures (scan mem (c :: rest)) m'' Q E) : Ensures (scan mem (c :: rest)) m' Q E := by
  have hend : ∀ {Q' : PUnit → Parser → Prop}, (∀ token,
      (∀ state, Represents table { p with got := some w }
        { m' with gotTok := true, token := token, state := state }) →
      Q' ⟨⟩ { m' with gotTok := true, token := token }) → Ensures endUnquoted m' Q' E := by
    intro Q' hQ'
    have ht : m'.t ≠ 0 := by
      rw [hw.t]
      simpa using hne
    rw [endUnquoted, ensures_bind, ensures_get, if_pos ht]
    refine ensures_endToken hw hover fun token htoken => hQ' token fun state => ?_
    exact hm.token_read hkeeps.table hkeeps.pair htoken state
  have hquote : ¬c = '"' := by
    rintro rfl
    exact absurd hc (by decide)
  have hnext := fun (token : List Char) (hrep : ∀ state, Represents table
      { p with got := some w } { m' with gotTok := true, token := token, state := state }) =>
    (ensures_turns_initial (by rfl) 1 c).mp
      (ensures_scan_cons.mp (h _ (hrep .initial) (by rfl)))
  rw [ensures_scan_cons, ensures_turns_unquoted hkeeps.state]
  by_cases hhash : c = '#'
  · simp only [if_pos hhash] at hnext ⊢
    exact hend hnext
  by_cases hnewline : c = '\n'
  · simp only [if_neg hhash, if_neg hquote, if_pos hnewline] at hnext ⊢
    exact hend hnext
  by_cases hsep : c = '='
  · simp only [if_neg hhash, if_neg hquote, if_neg hnewline, if_pos hsep] at hnext ⊢
    exact hend hnext
  by_cases hspace : isSpace c = true
  · simp only [if_neg hhash, if_neg hquote, if_neg hnewline, if_neg hsep, if_pos hspace]
      at hnext ⊢
    exact hend hnext
  · rw [plain] at hc
    simp [hhash, hsep, hspace] at hc

theorem LineRead.imp {p : Pending} {closed closed' : Prop} (h : LineRead table p closed m)
    (hclosed : closed' → closed) : LineRead table p closed' m := by
  obtain ⟨⟨table', hentered, hrep⟩, hstate⟩ := h
  refine ⟨⟨table', ?_, hrep⟩, hstate⟩
  rw [Entered] at hentered ⊢
  cases hpair : p.pair with
  | none =>
      rw [hpair] at hentered
      exact hentered
  | some w =>
      rw [hpair] at hentered
      obtain ⟨value, htable, hvalue⟩ := hentered
      exact ⟨value, htable, fun h => hvalue (hclosed h)⟩

theorem Represents.writing {p : Pending} (hm : Represents table p m) (state : ParseState) :
    Writing { m with t := 0, state := state } [] :=
  ⟨⟨m.token, rfl⟩, rfl, hm.sized⟩

theorem ensures_scan_open (hmem : E .outOfMemory) {p : Pending} (hm : Represents table p m)
    (hstate : m.state = .initial) {w : Str} (hquote : '"' ∉ w) (hline : '\n' ∉ w)
    (hover : E .overrun ∨ w.length < configTokSize) :
    Ensures (scan mem ('"' :: w)) m (fun _ m' =>
      Keeps { m with state := .quoted } m' ∧ Writing m' w) E := by
  rw [ensures_scan_cons, ensures_turns_initial hstate, if_neg (by decide), if_pos rfl]
  refine (ensures_scan_put hmem (hm.writing .quoted) (fun c hc m' Q hquoted hput => ?_)
    (by simpa using hover)).imp fun _ m' hm' => ?_
  · have hc1 : c ≠ '"' := fun heq => hquote (heq ▸ hc)
    have hc2 : c ≠ '\n' := fun heq => hline (heq ▸ hc)
    rw [ensures_turns_quoted hquoted, if_neg hc1, if_neg hc2]
    exact hput
  · obtain ⟨hkeeps, hwriting⟩ := hm'
    exact ⟨⟨hkeeps.table, hkeeps.state, hkeeps.gotTok, hkeeps.pair⟩, by simpa using hwriting⟩

theorem of_plain {c : Char} (hc : plain c = true) :
    c ≠ '#' ∧ c ≠ '\n' ∧ c ≠ '=' ∧ ¬isSpace c = true := by
  have hnewline : c ≠ '\n' := by
    rintro rfl
    exact absurd hc (by decide)
  simp only [plain, Bool.and_eq_true, Bool.not_eq_true', decide_eq_true_eq] at hc
  exact ⟨hc.2, hnewline, hc.1.2, by simp [hc.1.1]⟩

theorem ensures_scan_run (hmem : E .outOfMemory) {p : Pending} (hm : Represents table p m)
    (hstate : m.state = .initial) {c : Char} (hc : plain c = true) (hquote : c ≠ '"') {w : Str}
    (hw : ∀ b ∈ w, plain b = true) (hover : E .overrun ∨ (c :: w).length < configTokSize) :
    Ensures (scan mem (c :: w)) m (fun _ m' =>
      Keeps { m with state := .unquoted } m' ∧ Writing m' (c :: w)) E := by
  obtain ⟨hhash, hnewline, hsep, hspace⟩ := of_plain hc
  rw [ensures_scan_cons, ensures_turns_initial hstate, if_neg hhash, if_neg hquote,
    if_neg hnewline, if_neg hsep, if_neg hspace]
  have hfirst : E .overrun ∨ ([] : Str).length < configTokSize := Or.inr (by decide)
  refine (ensures_put hmem (hm.writing m.state) hfirst c).imp fun _ m' hm' => ?_
  obtain ⟨hkeeps, hwriting⟩ := hm'
  have hwriting' : Writing { m' with state := .unquoted } [c] :=
    ⟨hwriting.written, hwriting.t, hwriting.sized⟩
  refine (ensures_scan_put hmem hwriting' (fun b hb m'' Q hunquoted hput => ?_)
    hover).imp fun _ m'' hm'' => ?_
  · obtain ⟨hhash, hnewline, hsep, hspace⟩ := of_plain (hw b hb)
    rw [ensures_turns_unquoted hunquoted, if_neg hhash, if_neg hnewline, if_neg hsep,
      if_neg hspace]
    exact hput
  · obtain ⟨hkeeps', hwriting''⟩ := hm''
    exact ⟨⟨hkeeps'.table.trans hkeeps.table, hkeeps'.state, hkeeps'.gotTok.trans hkeeps.gotTok,
      hkeeps'.pair.trans hkeeps.pair⟩, hwriting''⟩

theorem Readable.room {pieces : List Lexeme} {w : Str}
    (h : E .overrun ∨ Readable (.token w :: pieces)) :
    E .overrun ∨ w.length < configTokSize :=
  h.imp id fun h => h.2 (.token w) List.mem_cons_self w rfl

/-- A line is read as its pieces say. -/
theorem ensures_scan_line (hmem : E .outOfMemory) {line : List Char} (hline : '\n' ∉ line)
    (hread : E .overrun ∨ Readable (lexemes line)) {p : Pending} (hm : Represents table p m)
    (hstate : m.state = .initial) :
    Ensures (scan mem (line ++ ['\n'])) m (fun _ m' =>
      LineRead table ((lexemes line).foldl (Pending.add table) p) (.unclosed ∉ lexemes line) m')
      E := by
  fun_induction lexemes line generalizing m p with
  | case1 =>
      rw [List.nil_append, ensures_scan_cons, ensures_turns_initial hstate, if_neg (by decide),
        if_neg (by decide), if_pos rfl]
      exact (ensures_newline hmem (hm.goTo _ m.t)).imp fun _ m' h => h.imp fun _ => trivial
  | case2 rest =>
      rw [List.cons_append, ensures_scan_cons, ensures_turns_initial hstate, if_pos rfl]
      refine ensures_scan_comment rfl (List.not_mem_of_not_mem_cons hline) ?_
      exact (ensures_newline hmem (hm.goTo _ m.t)).imp fun _ m' h => h.imp fun _ => trivial
  | case3 rest hopen =>
      have hquote : '"' ∉ rest := by
        intro hmem
        have hall := List.dropWhile_eq_nil_iff.mp hopen '"' hmem
        simp at hall
      have hover : E .overrun := hread.resolve_right fun h => h.1 List.mem_cons_self
      rw [ensures_scan_append]
      refine (ensures_scan_open hmem hm hstate hquote (List.not_mem_of_not_mem_cons hline)
        (Or.inl hover)).imp fun _ m' hm' => ?_
      obtain ⟨hkeeps, hwriting⟩ := hm'
      rw [ensures_scan_cons, ensures_turns_quoted hkeeps.state, if_neg (by decide), if_pos rfl]
      have hend : Ensures (handleNewline mem) { m' with state := .handleNewline }
          (fun _ m'' => LineRead table p False m'') E :=
        ensures_newline_unclosed hmem hover hwriting.sized (hkeeps.table.trans hm.table)
          (hkeeps.pair.trans hm.pair)
      exact hend.imp fun _ m'' h => h.imp fun hclosed => hclosed List.mem_cons_self
  | case4 rest head rest' hclose hhash ih =>
      have hsplit : rest = rest.takeWhile (· ≠ '"') ++ '"' :: rest' := by
        have hhead := List.head?_dropWhile_not (fun c => decide (c ≠ '"')) rest
        rw [hclose] at hhead
        obtain rfl : head = '"' := by simpa using hhead
        rw [← hclose, List.takeWhile_append_dropWhile]
      have hquote : '"' ∉ rest.takeWhile (· ≠ '"') := fun hmem => by
        simpa using List.mem_takeWhile_imp hmem
      generalize rest.takeWhile (· ≠ '"') = w at hsplit hquote hread ⊢
      subst hsplit
      simp only [List.mem_cons, List.mem_append, not_or] at hline
      obtain ⟨_, hw, _, hrest⟩ := hline
      have htext : '"' :: (w ++ '"' :: rest') ++ ['\n'] =
          '"' :: w ++ '"' :: (rest' ++ ['\n']) := by simp
      rw [htext, ensures_scan_append]
      refine (ensures_scan_open hmem hm hstate hquote hw (Readable.room hread)).imp
        fun _ m' hm' => ?_
      obtain ⟨hkeeps, hwriting⟩ := hm'
      rw [ensures_scan_cons, ensures_turns_quoted hkeeps.state, if_pos rfl]
      refine ensures_endToken hwriting (Readable.room hread) fun token htoken => ?_
      have hrep := hm.token_read hkeeps.table hkeeps.pair htoken .initial
      exact (ih hrest (hread.imp id Readable.tail) hrep rfl).imp fun _ m'' h =>
        h.imp List.not_mem_of_not_mem_cons
  | case5 rest hhash hquote ih =>
      rw [List.cons_append, ensures_scan_cons, ensures_turns_initial hstate, if_neg (by decide),
        if_neg (by decide), if_neg (by decide), if_pos rfl]
      obtain ⟨c, text, htext⟩ := List.exists_cons_of_ne_nil
        (List.append_ne_nil_of_right_ne_nil rest (List.cons_ne_nil '\n' []))
      have hsep := hm.goTo .handleSep m.t
      rw [htext]
      refine ensures_scan_sep rfl (ensures_handleSep hmem hsep.gotTok hsep.token fun n => ⟨rfl, ?_⟩)
      rw [← htext]
      exact (ih (List.not_mem_of_not_mem_cons hline) (hread.imp id Readable.tail)
        (hsep.sep n) rfl).imp fun _ m'' h => h.imp List.not_mem_of_not_mem_cons
  | case6 c rest hhash hquote hsep hspace ih =>
      have hc : ¬c = '\n' := fun heq => hline (heq ▸ List.mem_cons_self)
      rw [List.cons_append, ensures_scan_cons, ensures_turns_initial hstate, if_neg hhash,
        if_neg hquote, if_neg hc, if_neg hsep, if_pos hspace]
      exact ih (List.not_mem_of_not_mem_cons hline) hread hm hstate
  | case7 c rest hhash hquote hsep hspace ih =>
      have hc : plain c = true := by simp [plain, hhash, hsep, hspace]
      have hplain : ∀ b ∈ rest.takeWhile plain, plain b = true := fun b hb =>
        List.mem_takeWhile_imp hb
      obtain ⟨d, text, htext, hd⟩ : ∃ d text, rest.dropWhile plain ++ ['\n'] = d :: text ∧
          plain d = false := by
        cases hrest : rest.dropWhile plain with
        | nil => exact ⟨'\n', [], rfl, plain_newline⟩
        | cons d text =>
            have hhead := List.head?_dropWhile_not plain rest
            rw [hrest] at hhead
            exact ⟨d, text ++ ['\n'], rfl, by simpa using hhead⟩
      have hrest : '\n' ∉ rest.dropWhile plain := fun hmem =>
        hline (List.mem_cons_of_mem _ ((List.dropWhile_suffix plain).subset hmem))
      have hline' : c :: rest ++ ['\n'] = c :: rest.takeWhile plain ++ d :: text := by
        rw [← htext, List.cons_append, List.cons_append, ← List.append_assoc,
          List.takeWhile_append_dropWhile]
      rw [hline', ensures_scan_append]
      refine (ensures_scan_run hmem hm hstate hc hquote hplain (Readable.room hread)).imp
        fun _ m' hm' => ?_
      obtain ⟨hkeeps, hwriting⟩ := hm'
      refine ensures_scan_unquoted_end hm hkeeps hwriting (List.cons_ne_nil _ _)
        (Readable.room hread) hd fun m'' hrep hinitial => ?_
      rw [← htext]
      exact (ih hrest (hread.imp id Readable.tail) hrep hinitial).imp
        fun _ _ h => h.imp List.not_mem_of_not_mem_cons

end Reading

end FastDCS.ConfigGrammar
