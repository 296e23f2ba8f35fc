import Mathlib.Data.Char
import Mathlib.Data.List.Lex
import FastDCS.Handlers
import FastDCS.SearchTrees
import FastDCS.Strings

/-!
`config_file.cc`: the character machine of `config_parse`, one turn of its inner
loop a step, and `config_get`. The messages to the standard error stream, with
the line number they name, are left out.
-/

namespace FastDCS.ConfigFile

open FastDCS.Strings
open FastDCS.Handlers
open FastDCS.SearchTrees

/-- A C string ends before its first NUL byte. -/
def cString (bytes : List Char) : Str := bytes.takeWhile (· ≠ '\x00')

/-- `isspace` in the C locale. -/
def isSpace (c : Char) : Bool :=
  decide (c = ' ') || (decide (9 ≤ c.toNat) && decide (c.toNat ≤ 13))

/-- A pair, with a NULL pointer for the value of one under construction. -/
structure ConfigPair where
  key : Str
  value : Option Str := none
deriving DecidableEq

/-- The table that `bst_create` makes with `strcmp` on the keys. -/
abbrev Table := SearchTree ConfigPair

def configGet (table : Table) (key : Str) : Option Str :=
  (table.find ConfigPair.key (cString key)).bind ConfigPair.value

inductive ParseState where
  | initial
  | comment
  | quoted
  | unquoted
  | handleNewline
  | handleSep
deriving DecidableEq

/-- Why a call does not return 0: an allocation fails (`ENOMEM`), the file does
not open (`ENOENT`), or memory that is not the program's is used. -/
inductive Fault where
  | outOfMemory
  | noFile
  | overrun
deriving DecidableEq

/-- The allocator: which calls of it fail, how many bytes behind a block can be
used without harm, and what the bytes of new memory are. -/
structure Memory where
  fails : Nat → Bool
  slack : Nat
  byte : Nat → Char

/-- The locals of `config_parse`. `token` is all that can be used of the token
buffer, `t` an index into it. -/
structure Parser where
  table : Table := .leaf
  state : ParseState := .initial
  token : List Char
  t : Nat := 0
  tokCap : Nat
  gotTok : Bool := false
  pair : Option ConfigPair := none
  allocations : Nat

def configTokSize : Nat := 32

abbrev Scanner := StateT Parser (Except Fault)

variable (mem : Memory)

def allocate : Scanner PUnit := do
  let m ← get
  if mem.fails m.allocations then throw .outOfMemory
  set { m with allocations := m.allocations + 1 }

def goTo (state : ParseState) : Scanner PUnit := modify fun m => { m with state := state }

/-- `*t = c`. -/
def store (c : Char) : Scanner PUnit := do
  let m ← get
  if m.t < m.token.length then set { m with token := m.token.set m.t c } else throw .overrun

/-- The token buffer is made twice as large, one byte after it was full. -/
def enlarge : Scanner PUnit := do
  let m ← get
  if m.tokCap < m.t then
    allocate mem
    modify fun m =>
      { m with token := m.token ++ (List.range m.tokCap).map mem.byte, tokCap := 2 * m.tokCap }

/-- `*t++ = *p++`. -/
def put (c : Char) : Scanner PUnit := do
  enlarge mem
  store c
  modify fun m => { m with t := m.t + 1 }

/-- `t = token`. -/
def startToken : Scanner PUnit := modify fun m => { m with t := 0 }

def endToken : Scanner PUnit := do
  modify fun m => { m with gotTok := true }
  store '\x00'

def endUnquoted : Scanner PUnit := do
  if (← get).t ≠ 0 then endToken

/-- The token as a string function reads it. -/
def readToken : Scanner Str := do
  let m ← get
  if '\x00' ∈ m.token then return cString m.token else throw .overrun

def strdup (text : Str) : Scanner Str := do
  allocate mem
  return text

def newPair : Scanner (Option ConfigPair) := do
  if (← get).gotTok = false then return none
  let token ← readToken
  if (configGet (← get).table token).isSome then return none
  allocate mem
  return some { key := ← strdup mem token }

def handleSep : Scanner PUnit := do
  let pair ← newPair mem
  modify fun m => { m with pair := pair, gotTok := false, state := .initial }

def bstProbe (pair : ConfigPair) : Scanner PUnit := do
  if ((← get).table.find ConfigPair.key pair.key).isNone then allocate mem
  modify fun m => { m with table := m.table.probe ConfigPair.key pair }

def insertPair : Scanner PUnit := do
  match (← get).pair with
  | none => return
  | some pair =>
      let text ← if (← get).gotTok then readToken else pure []
      let value ← strdup mem text
      bstProbe mem { pair with value := some value }

def handleNewline : Scanner PUnit := do
  insertPair mem
  modify fun m => { m with gotTok := false, pair := none, state := .initial }

/-- One turn of the inner loop at the character `c`; whether `p` moves on. -/
def turn (c : Char) : Scanner Bool := do
  match (← get).state with
  | .initial =>
      if c = '#' then
        goTo .comment
        return true
      else if c = '"' then
        startToken
        goTo .quoted
        return true
      else if c = '\n' then
        goTo .handleNewline
        return false
      else if c = '=' then
        goTo .handleSep
        return true
      else if isSpace c then return true
      else
        startToken
        put mem c
        goTo .unquoted
        return true
  | .comment =>
      if c = '\n' then
        goTo .handleNewline
        return false
      else return true
  | .quoted =>
      if c = '"' then
        endToken
        goTo .initial
        return true
      else if c = '\n' then
        goTo .handleNewline
        return false
      else
        put mem c
        return true
  | .unquoted =>
      if c = '#' then
        endUnquoted
        goTo .comment
        return true
      else if c = '\n' then
        endUnquoted
        goTo .handleNewline
        return false
      else if c = '=' then
        endUnquoted
        goTo .handleSep
        return true
      else if isSpace c then
        endUnquoted
        goTo .initial
        return true
      else
        put mem c
        return true
  | .handleSep =>
      handleSep mem
      return false
  | .handleNewline =>
      handleNewline mem
      return true

/-- Up to `n` turns at a character; whether `p` has moved on. -/
def turns : Nat → Char → Scanner Bool
  | 0, _ => return false
  | n + 1, c => do
      if (← turn mem c) then return true
      turns n c

/-- The inner loop, with as many turns at a character as it can take. -/
def scan : List Char → Scanner PUnit
  | [] => return ⟨⟩
  | c :: rest => do
      let _ ← turns mem 3 c
      scan rest

/-- The outer loop, with the chunks that `fread` returns. -/
def scanChunks : List (List Char) → Scanner PUnit
  | [] => return ⟨⟩
  | chunk :: rest => do
      scan mem chunk
      scanChunks rest

def startParser : Parser where
  token := (List.range (configTokSize + mem.slack)).map mem.byte
  tokCap := configTokSize
  allocations := 3

/-- `config_parse` of a file that opens and is read in chunks, or does not open:
the table of `data` where it returns 0. -/
def configParse (file : Option (List (List Char))) : Except Fault Table := do
  if mem.fails 0 then throw .outOfMemory
  match file with
  | none => throw .noFile
  | some chunks =>
      if mem.fails 1 || mem.fails 2 then throw .outOfMemory
      let (_, m) ← (scanChunks mem chunks).run (startParser mem)
      return m.table

section Tables

/-- Every pair in the table has a value. -/
def Valued (table : Table) : Prop :=
  ∀ k pair, table.find ConfigPair.key k = some pair → pair.value.isSome = true

theorem cString_cString (bytes : List Char) : cString (cString bytes) = cString bytes :=
  List.takeWhile_idem

theorem cString_append_nul (w rest : List Char) : cString (w ++ '\x00' :: rest) = cString w := by
  induction w with
  | nil => rfl
  | cons c w ih =>
      rw [cString, cString, List.cons_append, List.takeWhile_cons, List.takeWhile_cons]
      split_ifs
      · exact congrArg (c :: ·) ih
      · rfl

theorem cString_of_not_mem {bytes : List Char} (h : '\x00' ∉ bytes) : cString bytes = bytes := by
  rw [cString, List.takeWhile_eq_self_iff]
  intro c hc
  refine decide_eq_true ?_
  rintro rfl
  exact h hc

theorem configGet_cString (table : Table) (key : Str) :
    configGet table (cString key) = configGet table key := by
  rw [configGet, configGet, cString_cString]

theorem configGet_leaf (key : Str) : configGet .leaf key = none := rfl

theorem valued_leaf : Valued .leaf := by
  intro k pair h
  cases h

theorem Valued.find_eq_none {table : Table} (h : Valued table) {key : Str}
    (hnone : configGet table key = none) : table.find ConfigPair.key (cString key) = none := by
  cases hfind : table.find ConfigPair.key (cString key) with
  | none => rfl
  | some pair =>
      obtain ⟨value, hvalue⟩ := Option.isSome_iff_exists.mp (h _ _ hfind)
      rw [configGet, hfind, Option.bind_some, hvalue] at hnone
      cases hnone

theorem Valued.probe {table : Table} (h : Valued table) (key value : Str) :
    Valued (table.probe ConfigPair.key { key := key, value := some value }) := by
  intro k pair hfind
  rw [SearchTree.find_probe] at hfind
  split_ifs at hfind
  · cases hold : table.find ConfigPair.key k with
    | none =>
        rw [hold] at hfind
        obtain rfl := Option.some.inj hfind
        rfl
    | some old =>
        rw [hold] at hfind
        obtain rfl := Option.some.inj hfind
        exact h _ _ hold
  · exact h _ _ hfind

/-- A new pair is found under its key and changes nothing else. -/
theorem configGet_probe {table : Table} (h : Valued table) {new value : Str}
    (hnone : configGet table new = none) (key : Str) :
    configGet (table.probe ConfigPair.key { key := cString new, value := some value }) key =
      if cString key = cString new then some value else configGet table key := by
  rw [configGet, SearchTree.find_probe]
  split_ifs with heq
  · rw [heq, h.find_eq_none hnone]
    rfl
  · rfl

end Tables

section Rules

variable {mem : Memory} {m : Parser} {E : Fault → Prop}

theorem ensures_allocate (hmem : E .outOfMemory) {Q : PUnit → Parser → Prop}
    (hQ : ∀ n, Q ⟨⟩ { m with allocations := n }) : Ensures (allocate mem) m Q E := by
  simp only [allocate, ensures_bind, ensures_get, ensures_ite, ensures_throw]
  exact ⟨fun _ => hmem, fun _ => hQ _⟩

theorem ensures_strdup (hmem : E .outOfMemory) {text : Str} {Q : Str → Parser → Prop}
    (hQ : ∀ n, Q text { m with allocations := n }) : Ensures (strdup mem text) m Q E := by
  rw [strdup, ensures_bind]
  exact ensures_allocate hmem hQ

/-- Only the token buffer is written. -/
structure Keeps (m m' : Parser) : Prop where
  table : m'.table = m.table
  state : m'.state = m.state
  gotTok : m'.gotTok = m.gotTok
  pair : m'.pair = m.pair

/-- `w` is what has been written of a token. -/
structure Writing (m : Parser) (w : Str) : Prop where
  written : ∃ rest, m.token = w ++ rest
  t : m.t = w.length
  sized : configTokSize ≤ m.token.length

/-- `w` is the token in the buffer. -/
structure HasToken (m : Parser) (w : Str) : Prop where
  written : ∃ rest, m.token = w ++ '\x00' :: rest
  sized : configTokSize ≤ m.token.length

/-- A byte behind what has been written of a token can be written. -/
theorem ensures_store {w : Str} (hw : Writing m w)
    (hover : E .overrun ∨ w.length < configTokSize) (c : Char) {Q : PUnit → Parser → Prop}
    (hQ : ∀ token, (∃ rest, token = w ++ c :: rest) → token.length = m.token.length →
      Q ⟨⟩ { m with token := token }) : Ensures (store c) m Q E := by
  obtain ⟨⟨rest, hrest⟩, ht, hsized⟩ := hw
  simp only [store, ensures_bind, ensures_get, ensures_ite, ensures_throw]
  refine ⟨fun hlt => hQ _ ?_ (List.length_set ..), fun hge => ?_⟩
  · rw [ht, hrest, List.length_append] at hlt
    cases rest with
    | nil =>
        rw [List.length_nil] at hlt
        omega
    | cons b rest =>
        refine ⟨rest, ?_⟩
        rw [hrest, ht, List.set_append_right _ _ le_rfl, Nat.sub_self, List.set_cons_zero]
  · refine hover.resolve_right fun hshort => ?_
    omega

theorem ensures_put (hmem : E .outOfMemory) {w : Str} (hw : Writing m w)
    (hover : E .overrun ∨ w.length < configTokSize) (c : Char) :
    Ensures (put mem c) m (fun _ m' => Keeps m m' ∧ Writing m' (w ++ [c])) E := by
  have hstored : ∀ m', Keeps m m' → Writing m' w →
      Ensures (do store c; modify fun m => { m with t := m.t + 1 }) m'
        (fun _ m'' => Keeps m m'' ∧ Writing m'' (w ++ [c])) E := by
    intro m' hkeeps hwriting
    simp only [ensures_bind]
    refine ensures_store hwriting hover c fun token hwritten hlength => ?_
    obtain ⟨rest, hrest⟩ := hwritten
    refine ⟨⟨hkeeps.table, hkeeps.state, hkeeps.gotTok, hkeeps.pair⟩, ⟨rest, ?_⟩, ?_, ?_⟩
    · rw [hrest, List.append_assoc, List.singleton_append]
    · rw [List.length_append, List.length_singleton, ← hwriting.t]
    · exact hlength ▸ hwriting.sized
  rw [put, ensures_bind, enlarge, ensures_bind, ensures_get, ensures_ite]
  refine ⟨fun _ => ?_, fun _ => ?_⟩
  · simp only [ensures_bind] at hstored ⊢
    refine ensures_allocate hmem fun n => ?_
    refine hstored _ ⟨rfl, rfl, rfl, rfl⟩ ?_
    obtain ⟨⟨rest, hrest⟩, ht, hsized⟩ := hw
    have hlength : configTokSize ≤ (m.token ++ (List.range m.tokCap).map mem.byte).length :=
      hsized.trans (List.length_append ▸ Nat.le_add_right _ _)
    exact ⟨⟨rest ++ (List.range m.tokCap).map mem.byte, by simp [hrest]⟩, ht, hlength⟩
  · exact hstored m ⟨rfl, rfl, rfl, rfl⟩ hw

theorem ensures_endToken {w : Str} (hw : Writing m w)
    (hover : E .overrun ∨ w.length < configTokSize) {Q : PUnit → Parser → Prop}
    (hQ : ∀ token, HasToken { m with gotTok := true, token := token } w →
      Q ⟨⟩ { m with gotTok := true, token := token }) : Ensures endToken m Q E := by
  rw [endToken, ensures_bind, ensures_modify]
  have hwriting : Writing { m with gotTok := true } w := ⟨hw.written, hw.t, hw.sized⟩
  refine ensures_store hwriting hover _ fun token hwritten hlength => hQ token ⟨hwritten, ?_⟩
  exact hlength ▸ hw.sized

theorem ensures_readToken {w : Str} (hw : HasToken m w) {Q : Str → Parser → Prop}
    (hQ : Q (cString w) m) : Ensures readToken m Q E := by
  obtain ⟨rest, hrest⟩ := hw.written
  simp only [readToken, ensures_bind, ensures_get, ensures_ite, ensures_pure, hrest,
    cString_append_nul]
  exact ⟨fun _ => hQ, fun hmem => absurd (by simp) hmem⟩

/-- A separator makes a new pair of a token whose key is not there yet, and
forgets the pair before it. -/
theorem ensures_handleSep (hmem : E .outOfMemory) {got : Option Str}
    (hgot : m.gotTok = got.isSome) (htoken : ∀ w, got = some w → HasToken m w)
    {Q : PUnit → Parser → Prop}
    (hQ : ∀ n, Q ⟨⟩ { m with
      pair := (got.filter fun w => (configGet m.table w).isNone).map fun w => { key := cString w }
      gotTok := false, state := .initial, allocations := n }) :
    Ensures (handleSep mem) m Q E := by
  simp only [handleSep, newPair, ensures_bind, ensures_get, ensures_ite, ensures_pure,
    ensures_modify]
  cases got with
  | none => exact ⟨fun _ => hQ m.allocations, fun h => absurd hgot h⟩
  | some w =>
      refine ⟨fun h => absurd (h.symm.trans hgot) Bool.false_ne_true, fun _ => ?_⟩
      refine ensures_readToken (htoken w rfl) ?_
      rw [configGet_cString]
      rw [Option.filter_some] at hQ
      refine ⟨fun hsome => ?_, fun hnone => ?_⟩
      · rw [if_neg (by simpa [Option.isSome_iff_ne_none] using hsome)] at hQ
        exact hQ m.allocations
      · rw [if_pos (by simpa using hnone)] at hQ
        exact ensures_allocate hmem fun _ => ensures_strdup hmem fun n => hQ n

/-- What a newline leaves behind. -/
structure Settled (m m' : Parser) : Prop where
  token : m'.token = m.token
  state : m'.state = .initial
  gotTok : m'.gotTok = false
  pair : m'.pair = none
  table : match m.pair with
    | none => m'.table = m.table
    | some pair => ∃ value,
        m'.table = m.table.probe ConfigPair.key { pair with value := some value } ∧
          (∀ w, HasToken m w → m.gotTok = true → value = cString w) ∧
            (m.gotTok = false → value = [])

theorem ensures_handleNewline (hmem : E .outOfMemory)
    (hread : E .overrun ∨ (m.gotTok = true → ∃ w, HasToken m w)) :
    Ensures (handleNewline mem) m (fun _ m' => Settled m m') E := by
  simp only [handleNewline, insertPair, ensures_bind, ensures_get]
  cases hpair : m.pair with
  | none =>
      simp only [ensures_pure, ensures_modify]
      exact ⟨rfl, rfl, rfl, rfl, by rw [hpair]⟩
  | some pair =>
      have hprobe : ∀ text, (∀ w, HasToken m w → m.gotTok = true → text = cString w) →
          (m.gotTok = false → text = []) →
          Ensures (do
            let value ← strdup mem text
            bstProbe mem { pair with value := some value }) m
            (fun _ m' => Settled m { m' with gotTok := false, pair := none, state := .initial })
            E := by
        intro text htoken hempty
        rw [ensures_bind]
        refine ensures_strdup hmem fun n => ?_
        simp only [bstProbe, ensures_bind, ensures_get, ensures_ite, ensures_modify]
        have hsettled : ∀ n', Settled m
            { m with
              table := m.table.probe ConfigPair.key { pair with value := some text }
              gotTok := false, pair := none, state := .initial, allocations := n' } := by
          intro n'
          refine ⟨rfl, rfl, rfl, rfl, ?_⟩
          rw [hpair]
          exact ⟨text, rfl, htoken, hempty⟩
        exact ⟨fun _ => ensures_allocate hmem fun n' => hsettled n', fun _ => hsettled n⟩
      simp only [ensures_bind, ensures_get, ensures_ite] at hprobe ⊢
      refine ⟨fun hgot => ?_, fun hgot => ?_⟩
      · simp only [readToken, ensures_bind, ensures_get, ensures_ite, ensures_pure,
          ensures_throw]
        refine ⟨fun _ => hprobe _ (fun w hw _ => ?_) fun h => ?_, fun hnul => ?_⟩
        · obtain ⟨rest, hrest⟩ := hw.written
          rw [hrest, cString_append_nul]
        · exact absurd (h.symm.trans hgot) Bool.false_ne_true
        · refine hread.resolve_right fun hread => ?_
          obtain ⟨w, hw⟩ := hread hgot
          obtain ⟨rest, hrest⟩ := hw.written
          rw [hrest] at hnul
          exact hnul (by simp)
      · exact hprobe [] (fun _ _ h => absurd h hgot) fun _ => rfl

end Rules

section Turns

variable {mem : Memory} {m : Parser} {E : Fault → Prop} {Q : Bool → Parser → Prop}

theorem ensures_turns_newline (hstate : m.state = .handleNewline) (n : Nat) (c : Char) :
    Ensures (turns mem (n + 1) c) m Q E ↔
      Ensures (handleNewline mem) m (fun _ m' => Q true m') E := by
  simp only [turns, turn, ensures_bind, ensures_get, hstate, ensures_pure, if_true]

theorem ensures_turns_initial (hstate : m.state = .initial) (n : Nat) (c : Char) :
    Ensures (turns mem (n + 2) c) m Q E ↔
      if c = '#' then Q true { m with state := .comment }
      else if c = '"' then Q true { m with t := 0, state := .quoted }
      else if c = '\n' then
        Ensures (handleNewline mem) { m with state := .handleNewline } (fun _ m' => Q true m') E
      else if c = '=' then Q true { m with state := .handleSep }
      else if isSpace c then Q true m
      else
        Ensures (put mem c) { m with t := 0 } (fun _ m' => Q true { m' with state := .unquoted })
          E := by
  obtain ⟨table, state, token, t, tokCap, gotTok, pair, allocations⟩ := m
  obtain rfl : state = .initial := hstate
  rw [turns, ensures_bind, turn, ensures_bind, ensures_get]
  dsimp only
  split_ifs <;>
    simp only [ensures_bind, goTo, startToken, ensures_modify, ensures_pure, if_true,
      Bool.false_eq_true, if_false]
  exact ensures_turns_newline rfl n c

theorem ensures_turns_comment (hstate : m.state = .comment) (n : Nat) (c : Char) :
    Ensures (turns mem (n + 2) c) m Q E ↔
      if c = '\n' then
        Ensures (handleNewline mem) { m with state := .handleNewline } (fun _ m' => Q true m') E
      else Q true m := by
  rw [turns, ensures_bind, turn, ensures_bind, ensures_get, hstate]
  dsimp only
  split_ifs <;>
    simp only [ensures_bind, goTo, ensures_modify, ensures_pure, if_true, Bool.false_eq_true,
      if_false]
  exact ensures_turns_newline rfl n c

theorem ensures_turns_quoted (hstate : m.state = .quoted) (n : Nat) (c : Char) :
    Ensures (turns mem (n + 2) c) m Q E ↔
      if c = '"' then
        Ensures endToken m (fun _ m' => Q true { m' with state := .initial }) E
      else if c = '\n' then
        Ensures (handleNewline mem) { m with state := .handleNewline } (fun _ m' => Q true m') E
      else Ensures (put mem c) m (fun _ m' => Q true m') E := by
  rw [turns, ensures_bind, turn, ensures_bind, ensures_get, hstate]
  dsimp only
  split_ifs <;>
    simp only [ensures_bind, goTo, ensures_modify, ensures_pure, if_true, Bool.false_eq_true,
      if_false]
  exact ensures_turns_newline rfl n c

theorem ensures_turns_unquoted (hstate : m.state = .unquoted) (n : Nat) (c : Char) :
    Ensures (turns mem (n + 2) c) m Q E ↔
      if c = '#' then Ensures endUnquoted m (fun _ m' => Q true { m' with state := .comment }) E
      else if c = '\n' then
        Ensures endUnquoted m (fun _ m' => Ensures (handleNewline mem)
          { m' with state := .handleNewline } (fun _ m'' => Q true m'') E) E
      else if c = '=' then
        Ensures endUnquoted m (fun _ m' => Q true { m' with state := .handleSep }) E
      else if isSpace c then
        Ensures endUnquoted m (fun _ m' => Q true { m' with state := .initial }) E
      else Ensures (put mem c) m (fun _ m' => Q true m') E := by
  rw [turns, ensures_bind, turn, ensures_bind, ensures_get, hstate]
  dsimp only
  split_ifs <;>
    simp only [ensures_bind, goTo, ensures_modify, ensures_pure, if_true, Bool.false_eq_true,
      if_false]
  constructor
  · exact fun h => h.imp fun _ _ hnext => (ensures_turns_newline rfl n c).mp hnext
  · exact fun h => h.imp fun _ _ hnext => (ensures_turns_newline rfl n c).mpr hnext

/-- A separator is handled at the character behind it, before that one is. -/
theorem ensures_turns_sep (hstate : m.state = .handleSep) (n : Nat) (c : Char) :
    Ensures (turns mem (n + 1) c) m Q E ↔
      Ensures (handleSep mem) m (fun _ m' => Ensures (turns mem n c) m' Q E) E := by
  simp only [turns, turn, ensures_bind, ensures_get, hstate, ensures_pure, Bool.false_eq_true,
    if_false]

end Turns

section Scans

variable {mem : Memory} {m : Parser} {E : Fault → Prop} {Q : PUnit → Parser → Prop}

theorem ensures_scan_cons {c : Char} {rest : List Char} :
    Ensures (scan mem (c :: rest)) m Q E ↔
      Ensures (turns mem 3 c) m (fun _ m' => Ensures (scan mem rest) m' Q E) E := by
  rw [scan, ensures_bind]

theorem ensures_scan_append {text rest : List Char} :
    Ensures (scan mem (text ++ rest)) m Q E ↔
      Ensures (scan mem text) m (fun _ m' => Ensures (scan mem rest) m' Q E) E := by
  induction text generalizing m with
  | nil => exact Iff.rfl
  | cons c text ih =>
      rw [List.cons_append, ensures_scan_cons, ensures_scan_cons]
      constructor
      · exact fun h => h.imp fun _ _ hrest => ih.mp hrest
      · exact fun h => h.imp fun _ _ hrest => ih.mpr hrest

/-- The cuts between the chunks make no difference. -/
theorem ensures_scanChunks {chunks : List (List Char)} :
    Ensures (scanChunks mem chunks) m Q E ↔ Ensures (scan mem chunks.flatten) m Q E := by
  induction chunks generalizing m with
  | nil => exact Iff.rfl
  | cons chunk rest ih =>
      rw [scanChunks, ensures_bind, List.flatten_cons, ensures_scan_append]
      constructor
      · exact fun h => h.imp fun _ _ hrest => ih.mp hrest
      · exact fun h => h.imp fun _ _ hrest => ih.mpr hrest

/-- A separator at the end of a text is handled before the next one. -/
theorem ensures_scan_sep (hstate : m.state = .handleSep) {c : Char} {rest : List Char}
    (h : Ensures (handleSep mem) m (fun _ m' => m'.state = .initial ∧
      Ensures (scan mem (c :: rest)) m' Q E) E) : Ensures (scan mem (c :: rest)) m Q E := by
  rw [ensures_scan_cons, ensures_turns_sep hstate]
  refine h.imp fun _ m' hm' => ?_
  obtain ⟨hinitial, hrest⟩ := hm'
  rw [ensures_scan_cons, ensures_turns_initial hinitial 1] at hrest
  exact (ensures_turns_initial hinitial 0 c).mpr hrest

theorem ensures_scan_comment (hstate : m.state = .comment) {text : List Char}
    (hline : '\n' ∉ text)
    (h : Ensures (handleNewline mem) { m with state := .handleNewline } Q E) :
    Ensures (scan mem (text ++ ['\n'])) m Q E := by
  induction text with
  | nil =>
      rw [List.nil_append, ensures_scan_cons, ensures_turns_comment hstate, if_pos rfl]
      exact h
  | cons c text ih =>
      obtain ⟨hc, hline⟩ := List.ne_and_not_mem_of_not_mem_cons hline
      rw [List.cons_append, ensures_scan_cons, ensures_turns_comment hstate, if_neg hc.symm]
      exact ih hline

/-- The two states in which characters are put into the token buffer, with the
characters they put there. -/
theorem ensures_scan_put (hmem : E .outOfMemory) {text w : Str} (hw : Writing m w)
    (hput : ∀ c ∈ text, ∀ {m' : Parser} {Q : Bool → Parser → Prop}, m'.state = m.state →
      Ensures (put mem c) m' (fun _ m'' => Q true m'') E → Ensures (turns mem 3 c) m' Q E)
    (hover : E .overrun ∨ (w ++ text).length < configTokSize) :
    Ensures (scan mem text) m (fun _ m' => Keeps m m' ∧ Writing m' (w ++ text)) E := by
  induction text generalizing m w with
  | nil =>
      rw [List.append_nil]
      exact ⟨⟨rfl, rfl, rfl, rfl⟩, hw⟩
  | cons c text ih =>
      have hroom : E .overrun ∨ w.length < configTokSize := hover.imp id fun h => by
        rw [List.length_append] at h
        omega
      rw [ensures_scan_cons]
      refine hput c List.mem_cons_self rfl ((ensures_put hmem hw hroom c).imp fun _ m' hm' => ?_)
      obtain ⟨hkeeps, hwriting⟩ := hm'
      have hrest := ih hwriting (fun c hc m'' Q hstate => hput c (List.mem_cons_of_mem _ hc)
        (hstate.trans hkeeps.state)) (by simpa using hover)
      refine hrest.imp fun _ m'' hm'' => ?_
      obtain ⟨hkeeps', hwriting'⟩ := hm''
      refine ⟨⟨?_, ?_, ?_, ?_⟩, by simpa using hwriting'⟩
      · exact hkeeps'.table.trans hkeeps.table
      · exact hkeeps'.state.trans hkeeps.state
      · exact hkeeps'.gotTok.trans hkeeps.gotTok
      · exact hkeeps'.pair.trans hkeeps.pair

end Scans

section Frames

variable {mem : Memory} {m : Parser}

theorem ensures_store_frame (c : Char) : Ensures (store c) m
    (fun _ m' => m'.table = m.table ∧ m'.state = m.state) fun _ => True := by
  simp only [store, ensures_bind, ensures_get, ensures_ite, ensures_throw]
  exact ⟨fun _ => ⟨rfl, rfl⟩, fun _ => trivial⟩

theorem ensures_put_frame (c : Char) : Ensures (put mem c) m
    (fun _ m' => m'.table = m.table ∧ m'.state = m.state) fun _ => True := by
  simp only [put, enlarge, allocate, ensures_bind, ensures_get, ensures_ite, ensures_modify,
    ensures_throw]
  refine ⟨fun _ => ⟨fun _ => trivial, fun _ => ?_⟩, fun _ => ?_⟩
  · exact ensures_store_frame c
  · exact ensures_store_frame c

theorem ensures_handleSep_frame : Ensures (handleSep mem) m
    (fun _ m' => m'.table = m.table ∧ m'.state = .initial) fun _ => True := by
  simp only [handleSep, newPair, readToken, ensures_bind, ensures_get, ensures_ite,
    ensures_modify, ensures_throw, ensures_pure]
  refine ⟨fun _ => ⟨trivial, trivial⟩,
    fun _ => ⟨fun _ => ⟨fun _ => ⟨trivial, trivial⟩, fun _ => ?_⟩, fun _ => trivial⟩⟩
  exact ensures_allocate trivial fun _ => ensures_strdup trivial fun _ => ⟨rfl, trivial⟩

theorem ensures_endUnquoted_frame : Ensures endUnquoted m
    (fun _ m' => m'.table = m.table ∧ m'.state = m.state) fun _ => True := by
  simp only [endUnquoted, endToken, ensures_bind, ensures_get, ensures_ite, ensures_modify,
    ensures_pure]
  exact ⟨fun _ => ensures_store_frame _, fun _ => ⟨trivial, trivial⟩⟩

/-- Only a newline enters a pair into the table. -/
theorem ensures_turn_frame (hstate : m.state ≠ .handleNewline) {c : Char} (hc : c ≠ '\n') :
    Ensures (turn mem c) m (fun _ m' => m'.table = m.table ∧ m'.state ≠ .handleNewline)
      fun _ => True := by
  rw [turn, ensures_bind, ensures_get]
  cases hm : m.state with
  | initial =>
      dsimp only
      split_ifs
      · exact ⟨rfl, by simp⟩
      · exact ⟨rfl, by simp⟩
      · exact ⟨rfl, by simp⟩
      · exact ⟨rfl, hstate⟩
      · simp only [startToken, goTo, ensures_bind, ensures_modify, ensures_pure]
        exact (ensures_put_frame c).imp fun _ m' h => ⟨h.1, by simp⟩
  | comment =>
      dsimp only
      rw [if_neg hc]
      exact ⟨rfl, hstate⟩
  | quoted =>
      dsimp only
      split_ifs
      · simp only [endToken, goTo, ensures_bind, ensures_modify, ensures_pure]
        exact (ensures_store_frame _).imp fun _ m' h => ⟨h.1, by simp⟩
      · rw [ensures_bind]
        exact (ensures_put_frame c).imp fun _ m' h => ⟨h.1, h.2 ▸ hstate⟩
  | unquoted =>
      have hend : ∀ state, state ≠ .handleNewline → Ensures (do
          endUnquoted
          goTo state
          return true) m (fun _ m' => m'.table = m.table ∧ m'.state ≠ .handleNewline)
          fun _ => True := by
        intro state hne
        simp only [goTo, ensures_bind, ensures_modify, ensures_pure]
        exact ensures_endUnquoted_frame.imp fun _ m' h => ⟨h.1, hne⟩
      dsimp only
      split_ifs
      · exact hend .comment (by simp)
      · exact hend .handleSep (by simp)
      · exact hend .initial (by simp)
      · rw [ensures_bind]
        exact (ensures_put_frame c).imp fun _ m' h => ⟨h.1, h.2 ▸ hstate⟩
  | handleSep =>
      rw [ensures_bind]
      exact ensures_handleSep_frame.imp fun _ m' h => ⟨h.1, by simp [h.2]⟩
  | handleNewline => exact absurd hm hstate

theorem ensures_turns_frame (hstate : m.state ≠ .handleNewline) {c : Char} (hc : c ≠ '\n')
    (n : Nat) : Ensures (turns mem n c) m
      (fun _ m' => m'.table = m.table ∧ m'.state ≠ .handleNewline) fun _ => True := by
  induction n generalizing m with
  | zero => exact ⟨rfl, hstate⟩
  | succ n ih =>
      rw [turns, ensures_bind]
      refine (ensures_turn_frame hstate hc).imp ?_
      rintro moved m' ⟨htable, hstate'⟩
      rw [ensures_ite]
      refine ⟨fun _ => ⟨htable, hstate'⟩, fun _ => ?_⟩
      exact (ih hstate').imp fun _ m'' h => ⟨h.1.trans htable, h.2⟩

theorem ensures_scan_frame (hstate : m.state ≠ .handleNewline) {text : List Char}
    (htext : '\n' ∉ text) : Ensures (scan mem text) m (fun _ m' => m'.table = m.table)
      fun _ => True := by
  induction text generalizing m with
  | nil => exact rfl
  | cons c rest ih =>
      obtain ⟨hc, hrest⟩ := List.ne_and_not_mem_of_not_mem_cons htext
      rw [ensures_scan_cons]
      refine (ensures_turns_frame hstate hc.symm 3).imp ?_
      rintro _ m' ⟨htable, hstate'⟩
      exact (ih hstate' hrest).imp fun _ m'' h => h.trans htable

/-- Three turns at a character are enough. -/
theorem ensures_turns_moved (c : Char) :
    Ensures (turns mem 3 c) m (fun moved _ => moved = true) fun _ => True := by
  have hput : ∀ m, Ensures (put mem c) m (fun _ _ => true = true) fun _ => True := fun m =>
    (ensures_put_frame c).imp fun _ _ _ => rfl
  have hend : ∀ m, Ensures endUnquoted m (fun _ _ => true = true) fun _ => True := fun m =>
    ensures_endUnquoted_frame.imp fun _ _ _ => rfl
  have hnewline : ∀ m, Ensures (handleNewline mem) m (fun _ _ => true = true) fun _ => True :=
    fun m => (ensures_handleNewline trivial (Or.inl trivial)).imp fun _ _ _ => rfl
  have hinitial : ∀ m n, m.state = .initial →
      Ensures (turns mem (n + 2) c) m (fun moved _ => moved = true) fun _ => True := by
    intro m n hm
    rw [ensures_turns_initial hm]
    split_ifs
    · rfl
    · rfl
    · exact hnewline _
    · rfl
    · rfl
    · exact hput _
  cases hm : m.state with
  | initial => exact hinitial m 1 hm
  | comment =>
      rw [ensures_turns_comment hm]
      split_ifs
      · exact hnewline _
      · rfl
  | quoted =>
      rw [ensures_turns_quoted hm, endToken, ensures_bind]
      split_ifs
      · exact (ensures_store_frame _).imp fun _ _ _ => rfl
      · exact hnewline _
      · exact hput m
  | unquoted =>
      rw [ensures_turns_unquoted hm]
      split_ifs
      · exact hend m
      · exact (hend m).imp fun _ m' _ => hnewline _
      · exact hend m
      · exact hend m
      · exact hput m
  | handleSep =>
      rw [ensures_turns_sep hm]
      exact ensures_handleSep_frame.imp fun _ m' h => hinitial m' 0 h.2
  | handleNewline =>
      rw [ensures_turns_newline hm]
      exact hnewline m

end Frames

section Calls

variable {mem : Memory} {E : Fault → Prop}

/-- What the scan of the whole text ensures holds of the table of a call that
returns 0, and the other calls fail as the scan may. -/
theorem configParse_spec (hmem : E .outOfMemory) {chunks : List (List Char)} {P : Table → Prop}
    (h : Ensures (scan mem chunks.flatten) (startParser mem) (fun _ m => P m.table) E) :
    match configParse mem (some chunks) with
    | .ok table => P table
    | .error fault => E fault := by
  rw [← ensures_scanChunks, Ensures] at h
  rw [configParse]
  cases mem.fails 0 with
  | true => exact hmem
  | false =>
      cases mem.fails 1 || mem.fails 2 with
      | true => exact hmem
      | false =>
          cases hrun : (scanChunks mem chunks).run (startParser mem) with
          | error fault =>
              rw [hrun] at h
              simpa [hrun] using h
          | ok r =>
              rw [hrun] at h
              simpa [hrun] using h

end Calls

end FastDCS.ConfigFile
