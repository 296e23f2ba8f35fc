import FastDCS.ConfigContents

/-!
The token buffer of `config_parse`: what a text makes the parser store in it, byte
by byte, whatever lies in the memory it is allocated from.
-/

namespace FastDCS.TokenBuffer

open FastDCS.Strings
open FastDCS.Handlers
open FastDCS.ConfigFile
open FastDCS.ConfigGrammar
open FastDCS.ConfigContents

/-- What the parser is in the middle of between two characters. -/
inductive Phase where
  | idle
  | comment
  | quoted
  | unquoted
deriving DecidableEq

def Phase.state : Phase → ParseState
  | idle => .initial
  | comment => .comment
  | quoted => .quoted
  | unquoted => .unquoted

/-- What has been read of a text: how far the token is written, the bytes that
are known at the beginning of the buffer, its capacity, whether there is a token
since the last separator, and the key before that separator. -/
structure Reading where
  phase : Phase := .idle
  t : Nat := 0
  known : List Char := []
  tokCap : Nat := configTokSize
  got : Bool := false
  key : Option Str := none
deriving DecidableEq

/-- A byte stored in the known part of the buffer or right behind it. -/
def overwrite (known : List Char) (t : Nat) (c : Char) : List Char :=
  known.take t ++ c :: known.drop (t + 1)

namespace Reading

/-- The capacity at the next character of a token. -/
def capacity (s : Reading) : Nat := if s.tokCap < s.t then 2 * s.tokCap else s.tokCap

def put (s : Reading) (c : Char) : Reading :=
  { s with known := overwrite s.known s.t c, t := s.t + 1, tokCap := s.capacity }

def endToken (s : Reading) : Reading :=
  { s with known := overwrite s.known s.t '\x00', got := true }

def sep (s : Reading) : Reading :=
  { s with phase := .idle, got := false, key := if s.got then some (cString s.known) else none }

def newline (s : Reading) : Reading := { s with phase := .idle, got := false, key := none }

/-- An unquoted token ends before the newline is handled. -/
def atNewline (s : Reading) : Reading := if s.phase = .unquoted then s.endToken else s

def next (s : Reading) (c : Char) : Reading :=
  match s.phase with
  | .idle =>
      if c = '#' then { s with phase := .comment }
      else if c = '"' then { s with t := 0, phase := .quoted }
      else if c = '\n' then s.newline
      else if c = '=' then s.sep
      else if isSpace c then s
      else { ({ s with t := 0 } : Reading).put c with phase := .unquoted }
  | .comment => if c = '\n' then s.newline else s
  | .quoted =>
      if c = '"' then { s.endToken with phase := .idle }
      else if c = '\n' then s.newline
      else s.put c
  | .unquoted =>
      if c = '#' then { s.endToken with phase := .comment }
      else if c = '\n' then s.endToken.newline
      else if c = '=' then s.endToken.sep
      else if isSpace c then { s.endToken with phase := .idle }
      else s.put c

/-- The index that is written at a character, and the capacity then. -/
def write (s : Reading) (c : Char) : Option (Nat × Nat) :=
  match s.phase with
  | .idle =>
      if c = '#' ∨ c = '"' ∨ c = '\n' ∨ c = '=' ∨ isSpace c then none else some (0, s.tokCap)
  | .comment => none
  | .quoted =>
      if c = '"' then some (s.t, s.tokCap)
      else if c = '\n' then none
      else some (s.t, s.capacity)
  | .unquoted =>
      if c = '#' ∨ c = '\n' ∨ c = '=' ∨ isSpace c then some (s.t, s.tokCap)
      else some (s.t, s.capacity)

/-- What holds between any two characters. -/
structure Sound (s : Reading) : Prop where
  sized : configTokSize ≤ s.tokCap
  within : s.t ≤ s.known.length
  started : s.phase = .unquoted → s.t ≠ 0
  terminated : s.got = true → s.phase = .idle ∨ s.phase = .comment → '\x00' ∈ s.known
  key : ∀ k, s.key = some k → cString k = k

end Reading

/-- What has been read of a text from the beginning of a file. -/
def readingOf (text : Str) : Reading := text.foldl Reading.next {}

section Overwriting

variable {known rest : List Char} {t : Nat} {c : Char}

theorem mem_overwrite : c ∈ overwrite known t c :=
  List.mem_append_right _ List.mem_cons_self

theorem length_overwrite (h : t ≤ known.length) :
    (overwrite known t c).length = max known.length (t + 1) := by
  rw [overwrite, List.length_append, List.length_take, List.length_cons, List.length_drop]
  omega

theorem overwrite_length : overwrite known known.length c = known ++ [c] := by
  rw [overwrite, List.take_length, List.drop_of_length_le (Nat.le_succ _)]

/-- Behind the known bytes lie the ones the buffer began with, as far as it
reached then. -/
def Behind (mem : Memory) (known token : List Char) : Prop :=
  ∃ more, token = known ++ ((startParser mem).token.drop known.length ++ more)

theorem Behind.append {mem : Memory} {token : List Char} (h : Behind mem known token)
    (bytes : List Char) : Behind mem known (token ++ bytes) := by
  obtain ⟨more, rfl⟩ := h
  exact ⟨more ++ bytes, by simp only [List.append_assoc]⟩

theorem Behind.set {mem : Memory} {token : List Char} (h : Behind mem known token)
    (ht : t ≤ known.length) (hlt : t < token.length) (c : Char) :
    Behind mem (overwrite known t c) (token.set t c) := by
  obtain ⟨more, rfl⟩ := h
  rcases Nat.lt_or_eq_of_le ht with hinside | rfl
  · refine ⟨more, ?_⟩
    rw [length_overwrite ht, max_eq_left hinside, List.set_append_left _ _ hinside,
      List.set_eq_take_append_cons_drop, if_pos hinside, overwrite]
  · rw [List.length_append] at hlt
    rw [overwrite_length, List.set_append_right _ _ le_rfl, Nat.sub_self]
    have hdrop : (startParser mem).token.drop (known ++ [c]).length =
        ((startParser mem).token.drop known.length).drop 1 := by
      rw [List.length_append, List.length_singleton, List.drop_drop]
    rw [Behind, hdrop]
    cases hempty : (startParser mem).token.drop known.length with
    | nil =>
        cases more with
        | nil =>
            rw [List.append_nil] at hlt
            exact absurd hlt (by simp [hempty])
        | cons b more => exact ⟨more, by simp⟩
    | cons b rest => exact ⟨more, by simp⟩

end Overwriting

section Soundness

variable {s : Reading}

namespace Reading

theorem tokCap_le_capacity (s : Reading) : s.tokCap ≤ s.capacity := by
  rw [capacity]
  split_ifs
  · omega
  · exact le_rfl

theorem Sound.put (hs : s.Sound) (c : Char) {phase : Phase}
    (hphase : phase = .quoted ∨ phase = .unquoted) : ({ s.put c with phase := phase }).Sound where
  sized := hs.sized.trans s.tokCap_le_capacity
  within := by
    dsimp only [Reading.put]
    rw [length_overwrite hs.within]
    exact le_max_right _ _
  started _ := Nat.succ_ne_zero _
  terminated _ h := by
    dsimp only at h
    rcases hphase with rfl | rfl
    · simp at h
    · simp at h
  key := hs.key

theorem Sound.endToken (hs : s.Sound) {phase : Phase} (hphase : phase = .unquoted → s.t ≠ 0) :
    ({ s.endToken with phase := phase }).Sound where
  sized := hs.sized
  within := by
    dsimp only [Reading.endToken]
    rw [length_overwrite hs.within]
    exact hs.within.trans (le_max_left _ _)
  started := hphase
  terminated _ _ := mem_overwrite
  key := hs.key

theorem Sound.sep (hs : s.Sound) : s.sep.Sound := by
  refine ⟨hs.sized, hs.within, fun h => (by cases h), fun h => (by cases h), ?_⟩
  intro k hk
  rw [Reading.sep] at hk
  dsimp only at hk
  split_ifs at hk
  obtain rfl := Option.some.inj hk
  exact cString_cString s.known

theorem Sound.newline (hs : s.Sound) : s.newline.Sound :=
  ⟨hs.sized, hs.within, fun h => (by cases h), fun h => (by cases h), fun k hk => (by cases hk)⟩

theorem Sound.goTo (hs : s.Sound) {t : Nat} (ht : t ≤ s.t) {phase : Phase}
    (hphase : phase = .quoted ∨ s.phase = .idle ∧ phase = .comment) :
    ({ s with t := t, phase := phase }).Sound where
  sized := hs.sized
  within := ht.trans hs.within
  started h := by
    rcases hphase with rfl | ⟨_, rfl⟩
    · cases h
    · cases h
  terminated hgot h := by
    rcases hphase with rfl | ⟨hidle, rfl⟩
    · simp at h
    · exact hs.terminated hgot (Or.inl hidle)
  key := hs.key

theorem Sound.next (hs : s.Sound) (c : Char) : (s.next c).Sound := by
  have hended : ({ s.endToken with phase := .idle } : Reading).Sound := hs.endToken (by simp)
  have hsep : s.endToken.sep.Sound := hended.sep
  have hnewline : s.endToken.newline.Sound := hended.newline
  rw [Reading.next]
  cases hphase : s.phase with
  | idle =>
      dsimp only
      split_ifs
      · exact hs.goTo le_rfl (Or.inr ⟨hphase, rfl⟩)
      · exact hs.goTo (Nat.zero_le _) (Or.inl rfl)
      · exact hs.newline
      · exact hs.sep
      · exact hs
      · have hstart : ({ s with t := 0 } : Reading).Sound :=
          ⟨hs.sized, Nat.zero_le _, fun h => (by cases hphase.symm.trans h), hs.terminated,
            hs.key⟩
        exact hstart.put c (Or.inr rfl)
  | comment =>
      dsimp only
      split_ifs
      · exact hs.newline
      · exact hs
  | quoted =>
      dsimp only
      split_ifs
      · exact hs.endToken (by simp)
      · exact hs.newline
      · have hput := hs.put c (Or.inl rfl)
        rw [← hphase] at hput
        exact hput
  | unquoted =>
      dsimp only
      split_ifs
      · exact hs.endToken (by simp)
      · exact hnewline
      · exact hsep
      · exact hs.endToken (by simp)
      · have hput := hs.put c (Or.inr rfl)
        rw [← hphase] at hput
        exact hput

theorem sound_start : ({} : Reading).Sound :=
  ⟨le_rfl, le_rfl, fun h => (by cases h), fun h => (by cases h), fun k hk => (by cases hk)⟩

theorem length_known_next (hs : s.Sound) (c : Char) :
    (s.next c).known.length ≤ s.known.length + 1 := by
  have hwrite : ∀ t b, t ≤ s.known.length →
      (overwrite s.known t b).length ≤ s.known.length + 1 := by
    intro t b ht
    rw [length_overwrite ht]
    omega
  have hsame : s.known.length ≤ s.known.length + 1 := Nat.le_succ _
  rw [Reading.next]
  cases s.phase with
  | idle =>
      dsimp only
      split_ifs
      · exact hsame
      · exact hsame
      · exact hsame
      · exact hsame
      · exact hsame
      · exact hwrite 0 c (Nat.zero_le _)
  | comment =>
      dsimp only
      split_ifs
      · exact hsame
      · exact hsame
  | quoted =>
      dsimp only
      split_ifs
      · exact hwrite _ _ hs.within
      · exact hsame
      · exact hwrite _ _ hs.within
  | unquoted =>
      dsimp only
      split_ifs
      · exact hwrite _ _ hs.within
      · exact hwrite _ _ hs.within
      · exact hwrite _ _ hs.within
      · exact hwrite _ _ hs.within
      · exact hwrite _ _ hs.within

end Reading

end Soundness

section Following

/-- The parser has read what the reading says, with this table. -/
structure Follows (mem : Memory) (table : Table) (s : Reading) (m : Parser) : Prop where
  table_eq : m.table = table
  valued : Valued table
  token : Behind mem s.known m.token
  length : m.token.length = m.tokCap + mem.slack
  tokCap : m.tokCap = s.tokCap
  t : m.t = s.t
  gotTok : m.gotTok = s.got
  pair : m.pair = (s.key.filter fun k => (configGet table k).isNone).map fun k => { key := k }

/-- A separator at the end of what has been read is handled at the next character. -/
def At (mem : Memory) (table : Table) (s : Reading) (m : Parser) : Prop :=
  m.state = s.phase.state ∧ Follows mem table s m ∨
    m.state = .handleSep ∧ ∃ before : Reading, before.Sound ∧ before.phase = .idle ∧
      s = before.sep ∧ Follows mem table before m

/-- What a newline makes of the table. The value is that of the buffer, which
ends in bytes of its own memory. -/
def Enters (mem : Memory) (table : Table) (s : Reading) (table' : Table) : Prop :=
  match s.key.filter fun k => (configGet table k).isNone with
  | none => table' = table
  | some k => ∃ token value, Behind mem s.known token ∧
      table' = table.probe ConfigPair.key { key := k, value := some value } ∧
        ('\x00' ∈ token → s.got = true → value = cString token) ∧ (s.got = false → value = [])

/-- Memory with room for so many bytes of a token and a NUL byte behind them. -/
def Ample (mem : Memory) (n : Nat) : Prop :=
  n < configTokSize + mem.slack ∧ mem.byte (configTokSize + mem.slack - 1) = '\x00'

variable {mem : Memory} {table table' : Table} {s : Reading} {m m' : Parser} {E : Fault → Prop}

theorem Ample.mono {n k : Nat} (h : Ample mem n) (hle : k ≤ n) : Ample mem k :=
  ⟨hle.trans_lt h.1, h.2⟩

/-- In ample memory the buffer ends somewhere. -/
theorem nul_mem_of_ample {known token : List Char} (h : Ample mem known.length)
    (htoken : Behind mem known token) : '\x00' ∈ token := by
  obtain ⟨more, rfl⟩ := htoken
  refine List.mem_append_right _ (List.mem_append_left _ ?_)
  have hlt := h.1
  have hlength : (startParser mem).token.length = configTokSize + mem.slack := by
    rw [startParser, List.length_map, List.length_range]
  have hget : (startParser mem).token[configTokSize + mem.slack - 1]? = some '\x00' := by
    rw [startParser, List.getElem?_map, List.getElem?_range (by omega), Option.map_some, h.2]
  refine List.mem_of_getElem? (i := configTokSize + mem.slack - 1 - known.length) ?_
  rw [List.getElem?_drop, Nat.add_sub_cancel' (by omega), hget]

theorem Follows.room (h : Follows mem table s m) (hs : s.Sound)
    (hroom : E .overrun ∨ Ample mem s.known.length) : E .overrun ∨ m.t < m.token.length := by
  refine hroom.imp id fun hample => ?_
  have hlt := hample.1
  have hsized := hs.sized
  have hwithin := hs.within
  rw [h.length, h.t, h.tokCap]
  omega

theorem ensures_store_token {c : Char} (hroom : E .overrun ∨ m.t < m.token.length)
    {Q : PUnit → Parser → Prop}
    (hQ : m.t < m.token.length → Q ⟨⟩ { m with token := m.token.set m.t c }) :
    Ensures (store c) m Q E := by
  simp only [store, ensures_bind, ensures_get, ensures_ite, ensures_throw]
  exact ⟨hQ, hroom.resolve_right⟩

theorem Follows.stored (h : Follows mem table s m) (hs : s.Sound) (hlt : m.t < m.token.length)
    (c : Char) :
    Behind mem (overwrite s.known s.t c) (m.token.set m.t c) ∧
      (m.token.set m.t c).length = m.tokCap + mem.slack := by
  refine ⟨?_, by rw [List.length_set, h.length]⟩
  rw [h.t] at hlt ⊢
  exact h.token.set hs.within hlt c

/-- A character of a token. -/
theorem ensures_put_follows (hmem : E .outOfMemory) (h : Follows mem table s m) (hs : s.Sound)
    (hroom : E .overrun ∨ Ample mem s.known.length) (c : Char) :
    Ensures (put mem c) m (fun _ m' => m'.state = m.state ∧ Follows mem table (s.put c) m') E := by
  have hstored : ∀ m', m'.state = m.state → m'.tokCap = s.capacity → m'.t = s.t →
      Follows mem table { s with tokCap := s.capacity } m' →
      Ensures (do store c; modify fun m => { m with t := m.t + 1 }) m'
        (fun _ m'' => m''.state = m.state ∧ Follows mem table (s.put c) m'') E := by
    intro m' hstate hcap ht hm'
    have hs' : ({ s with tokCap := s.capacity } : Reading).Sound :=
      ⟨hs.sized.trans s.tokCap_le_capacity, hs.within, hs.started, hs.terminated, hs.key⟩
    simp only [ensures_bind, ensures_modify]
    refine ensures_store_token (hm'.room hs' hroom) fun hlt => ⟨hstate, ?_⟩
    obtain ⟨hbehind, hlength⟩ := hm'.stored hs' hlt c
    exact ⟨hm'.table_eq, hm'.valued, hbehind, hlength, hcap, congrArg (· + 1) ht, hm'.gotTok,
      hm'.pair⟩
  rw [put, ensures_bind, enlarge, ensures_bind, ensures_get, ensures_ite]
  refine ⟨fun hfull => ?_, fun hfits => ?_⟩
  · rw [h.tokCap, h.t] at hfull
    have hcap : 2 * m.tokCap = s.capacity := by rw [Reading.capacity, if_pos hfull, h.tokCap]
    simp only [ensures_bind] at hstored ⊢
    refine ensures_allocate hmem fun n => ?_
    refine hstored _ rfl hcap h.t ⟨h.table_eq, h.valued, h.token.append _, ?_, hcap, h.t, h.gotTok,
      h.pair⟩
    dsimp only
    rw [List.length_append, h.length, List.length_map, List.length_range]
    omega
  · rw [h.tokCap, h.t] at hfits
    have hcap : m.tokCap = s.capacity := by rw [Reading.capacity, if_neg hfits, h.tokCap]
    exact hstored m rfl hcap h.t
      ⟨h.table_eq, h.valued, h.token, h.length, hcap, h.t, h.gotTok, h.pair⟩

theorem ensures_endToken_follows (h : Follows mem table s m) (hs : s.Sound)
    (hroom : E .overrun ∨ Ample mem s.known.length) :
    Ensures endToken m (fun _ m' => Follows mem table s.endToken m') E := by
  rw [endToken, ensures_bind, ensures_modify]
  refine ensures_store_token (m := { m with gotTok := true }) (h.room hs hroom) fun hlt => ?_
  obtain ⟨hbehind, hlength⟩ := h.stored hs hlt '\x00'
  exact ⟨h.table_eq, h.valued, hbehind, hlength, h.tokCap, h.t, rfl, h.pair⟩

theorem cString_append_of_mem {known rest : List Char} (h : '\x00' ∈ known) :
    cString (known ++ rest) = cString known := by
  obtain ⟨w, more, rfl⟩ := List.append_of_mem h
  rw [List.append_assoc, List.cons_append, cString_append_nul, cString_append_nul]

/-- A separator reads the token in the known bytes of the buffer. -/
theorem ensures_handleSep_follows (hmem : E .outOfMemory) (h : Follows mem table s m)
    (hs : s.Sound) (hphase : s.phase = .idle) :
    Ensures (handleSep mem) m (fun _ m' => m'.state = .initial ∧ Follows mem table s.sep m') E := by
  obtain ⟨more, hmore⟩ := h.token
  have hsized : configTokSize ≤ m.token.length := by
    have := hs.sized
    rw [h.length, h.tokCap]
    omega
  cases hgot : s.got with
  | false =>
      have hnone : m.gotTok = (none : Option Str).isSome := h.gotTok.trans hgot
      refine ensures_handleSep hmem hnone (fun w hw => (by cases hw)) fun n => ⟨rfl, ?_⟩
      refine ⟨h.table_eq, h.valued, h.token, h.length, h.tokCap, h.t, rfl, ?_⟩
      rw [Reading.sep, hgot]
      rfl
  | true =>
      obtain ⟨w, rest, hknown⟩ := List.append_of_mem (hs.terminated hgot (Or.inl hphase))
      have hsome : m.gotTok = (some w).isSome := h.gotTok.trans hgot
      have hkey : cString s.known = cString w := by rw [hknown, cString_append_nul]
      refine ensures_handleSep hmem hsome ?_ fun n => ⟨rfl, ?_⟩
      · intro w' hw'
        obtain rfl := Option.some.inj hw'
        refine ⟨⟨rest ++ ((startParser mem).token.drop s.known.length ++ more), ?_⟩, hsized⟩
        rw [hmore, hknown, List.append_assoc, List.cons_append, ← hknown]
      · refine ⟨h.table_eq, h.valued, h.token, h.length, h.tokCap, h.t, rfl, ?_⟩
        rw [Reading.sep, if_pos hgot, hkey, h.table_eq, Option.filter_some, Option.filter_some,
          configGet_cString]
        split_ifs <;> rfl

theorem ensures_handleNewline_frame : Ensures (handleNewline mem) m
    (fun _ m' => m'.tokCap = m.tokCap ∧ m'.t = m.t) fun _ => True := by
  simp only [handleNewline, insertPair, ensures_bind, ensures_get]
  cases m.pair with
  | none =>
      simp only [ensures_pure, ensures_modify]
      exact ⟨trivial, trivial⟩
  | some pair =>
      have hprobe : ∀ text, Ensures (do
          let value ← strdup mem text
          bstProbe mem { pair with value := some value }) m
          (fun _ m' => m'.tokCap = m.tokCap ∧ m'.t = m.t) fun _ => True := by
        intro text
        rw [ensures_bind]
        refine ensures_strdup trivial fun n => ?_
        simp only [bstProbe, ensures_bind, ensures_get, ensures_ite, ensures_modify]
        exact ⟨fun _ => ensures_allocate trivial fun _ => ⟨rfl, rfl⟩, fun _ => ⟨trivial, trivial⟩⟩
      simp only [ensures_bind, ensures_get, ensures_ite, ensures_modify] at hprobe ⊢
      refine ⟨fun _ => ?_, fun _ => hprobe []⟩
      simp only [readToken, ensures_bind, ensures_get, ensures_ite, ensures_pure, ensures_throw]
      exact ⟨fun _ => hprobe _, fun _ => trivial⟩

/-- A newline enters the pair with what the buffer holds. -/
theorem ensures_handleNewline_follows (hmem : E .outOfMemory) (h : Follows mem table s m)
    (hs : s.Sound) (hread : E .overrun ∨ '\x00' ∈ m.token) :
    Ensures (handleNewline mem) m (fun _ m' => ∃ table', Enters mem table s table' ∧
      m'.state = .initial ∧ Follows mem table' s.newline m') E := by
  have hsized : configTokSize ≤ m.token.length := by
    have := hs.sized
    rw [h.length, h.tokCap]
    omega
  have htoken : '\x00' ∈ m.token → ∃ w, HasToken m w ∧ cString m.token = cString w := by
    intro hnul
    obtain ⟨w, rest, hw⟩ := List.append_of_mem hnul
    exact ⟨w, ⟨⟨rest, hw⟩, hsized⟩, by rw [hw, cString_append_nul]⟩
  refine ((ensures_handleNewline hmem (hread.imp id fun hnul _ => ?_)).and_frame
    ensures_handleNewline_frame).imp ?_
  · obtain ⟨w, hw, _⟩ := htoken hnul
    exact ⟨w, hw⟩
  · rintro _ m' ⟨hsettled, hcap, ht⟩
    have hfollows : Valued m'.table → Follows mem m'.table s.newline m' := by
      intro hvalued
      refine ⟨rfl, hvalued, ?_, ?_, hcap.trans h.tokCap, ht.trans h.t, hsettled.gotTok,
        hsettled.pair⟩
      · rw [hsettled.token]
        exact h.token
      · rw [hsettled.token, hcap]
        exact h.length
    have htable := hsettled.table
    rw [h.pair, h.table_eq] at htable
    refine ⟨m'.table, ?_, hsettled.state, hfollows ?_⟩
    · rw [Enters]
      cases hkey : s.key.filter fun k => (configGet table k).isNone with
      | none =>
          rw [hkey] at htable
          exact htable
      | some k =>
          rw [hkey] at htable
          obtain ⟨value, hprobe, hvalue, hempty⟩ := htable
          refine ⟨m.token, value, h.token, hprobe, ?_, ?_⟩
          · intro hnul hgot
            obtain ⟨w, hw, heq⟩ := htoken hnul
            rw [heq]
            exact hvalue w hw (h.gotTok.trans hgot)
          · intro hgot
            exact hempty (h.gotTok.trans hgot)
    · cases hkey : s.key.filter fun k => (configGet table k).isNone with
      | none =>
          rw [hkey] at htable
          exact htable ▸ h.valued
      | some k =>
          rw [hkey] at htable
          obtain ⟨value, hprobe, _⟩ := htable
          rw [hprobe]
          exact h.valued.probe _ _

/-- What a character does to the table. -/
def Turned (mem : Memory) (table : Table) (s : Reading) (c : Char) (table' : Table) : Prop :=
  if c = '\n' then Enters mem table s.atNewline table' else table' = table

theorem Follows.with_state (h : Follows mem table s m) (state : ParseState) (phase : Phase) :
    Follows mem table { s with phase := phase } { m with state := state } :=
  ⟨h.table_eq, h.valued, h.token, h.length, h.tokCap, h.t, h.gotTok, h.pair⟩

/-- One character, from a state that is settled. -/
theorem ensures_turns_follows (hmem : E .outOfMemory) (hs : s.Sound)
    (hroom : E .overrun ∨ Ample mem (s.known.length + 1)) (hstate : m.state = s.phase.state)
    (h : Follows mem table s m) (n : Nat) (c : Char) :
    Ensures (turns mem (n + 2) c) m (fun _ m' => ∃ table', Turned mem table s c table' ∧
      At mem table' (s.next c) m') E := by
  have hroom' : E .overrun ∨ Ample mem s.known.length :=
    hroom.imp id fun hample => hample.mono (Nat.le_succ _)
  have hread : ∀ {s' : Reading} {m' : Parser}, Follows mem table s' m' →
      s'.known.length ≤ s.known.length + 1 → E .overrun ∨ '\x00' ∈ m'.token := by
    intro s' m' hm' hle
    exact hroom.imp id fun hample => nul_mem_of_ample (hample.mono hle) hm'.token
  have hnewline : ∀ {s' : Reading} {m' : Parser}, s'.Sound → Follows mem table s' m' →
      s'.known.length ≤ s.known.length + 1 → s' = s.atNewline → c = '\n' →
      Ensures (handleNewline mem) { m' with state := .handleNewline } (fun _ m'' =>
        ∃ table', Turned mem table s c table' ∧ At mem table' s'.newline m'') E := by
    intro s' m' hs' hm' hle hat hc
    have hfollows := hm'.with_state .handleNewline s'.phase
    refine (ensures_handleNewline_follows hmem hfollows hs' (hread hfollows hle)).imp ?_
    rintro _ m'' ⟨table', henters, hinitial, hlast⟩
    refine ⟨table', ?_, Or.inl ⟨hinitial, hlast⟩⟩
    rw [Turned, if_pos hc, ← hat]
    exact henters
  have hsame : ∀ {s' : Reading} {m' : Parser}, c ≠ '\n' → m'.state = s'.phase.state →
      Follows mem table s' m' → ∃ table', Turned mem table s c table' ∧ At mem table' s' m' := by
    intro s' m' hc hstate' hm'
    exact ⟨table, (by rw [Turned, if_neg hc]), Or.inl ⟨hstate', hm'⟩⟩
  have hput : c ≠ '\n' → Ensures (put mem c) m (fun _ m' => ∃ table',
      Turned mem table s c table' ∧ At mem table' (s.put c) m') E := by
    intro hc
    refine (ensures_put_follows hmem h hs hroom' c).imp ?_
    rintro _ m' ⟨hstate', hlast⟩
    exact hsame hc (hstate'.trans hstate) hlast
  have hend : ∀ {Q : PUnit → Parser → Prop}, (∀ m', Follows mem table s.endToken m' →
      Q ⟨⟩ m') → Ensures endToken m Q E := by
    intro Q hQ
    exact (ensures_endToken_follows h hs hroom').imp fun _ m' hm' => hQ m' hm'
  rw [Reading.next]
  cases hphase : s.phase with
  | idle =>
      rw [hphase] at hstate
      rw [ensures_turns_initial hstate]
      dsimp only
      split_ifs with hhash hquote hline hsep hspace
      · exact hsame (by rw [hhash]; decide) rfl (h.with_state _ .comment)
      · refine hsame (by rw [hquote]; decide) rfl ?_
        exact ⟨h.table_eq, h.valued, h.token, h.length, h.tokCap, rfl, h.gotTok, h.pair⟩
      · exact hnewline hs h (Nat.le_succ _) (by rw [Reading.atNewline, hphase]; rfl) hline
      · refine ⟨table, ?_, Or.inr ⟨rfl, s, hs, hphase, rfl, h.with_state _ s.phase⟩⟩
        rw [Turned, if_neg (by rw [hsep]; decide)]
      · rw [← hphase] at hstate
        exact hsame hline hstate h
      · have hs' : ({ s with t := 0 } : Reading).Sound :=
          ⟨hs.sized, Nat.zero_le _, fun hun => (by cases hphase.symm.trans hun), hs.terminated,
            hs.key⟩
        have hm' : Follows mem table { s with t := 0 } { m with t := 0 } :=
          ⟨h.table_eq, h.valued, h.token, h.length, h.tokCap, rfl, h.gotTok, h.pair⟩
        refine (ensures_put_follows hmem hm' hs' hroom' c).imp ?_
        rintro _ m' ⟨_, hlast⟩
        exact hsame hline rfl (hlast.with_state _ .unquoted)
  | comment =>
      rw [hphase] at hstate
      rw [ensures_turns_comment hstate]
      dsimp only
      split_ifs with hline
      · exact hnewline hs h (Nat.le_succ _) (by rw [Reading.atNewline, hphase]; rfl) hline
      · rw [← hphase] at hstate
        exact hsame hline hstate h
  | quoted =>
      rw [hphase] at hstate
      rw [ensures_turns_quoted hstate]
      dsimp only
      split_ifs with hquote hline
      · refine hend fun m' hm' => ?_
        exact hsame (by rw [hquote]; decide) rfl (hm'.with_state _ .idle)
      · exact hnewline hs h (Nat.le_succ _) (by rw [Reading.atNewline, hphase]; rfl) hline
      · exact hput hline
  | unquoted =>
      have hendUnquoted : ∀ {Q : PUnit → Parser → Prop}, (∀ m', Follows mem table s.endToken m' →
          Q ⟨⟩ m') → Ensures endUnquoted m Q E := by
        intro Q hQ
        have ht : m.t ≠ 0 := h.t ▸ hs.started hphase
        rw [endUnquoted, ensures_bind, ensures_get, if_pos ht]
        exact hend hQ
      rw [hphase] at hstate
      rw [ensures_turns_unquoted hstate]
      dsimp only
      split_ifs with hhash hline hsep hspace
      · refine hendUnquoted fun m' hm' => ?_
        exact hsame (by rw [hhash]; decide) rfl (hm'.with_state _ .comment)
      · refine hendUnquoted fun m' hm' => ?_
        have hs' : s.endToken.Sound := hs.endToken hs.started
        have hle : s.endToken.known.length ≤ s.known.length + 1 := by
          have hwithin := hs.within
          dsimp only [Reading.endToken]
          rw [length_overwrite hwithin]
          omega
        exact hnewline hs' hm' hle (by rw [Reading.atNewline, if_pos hphase]) hline
      · refine hendUnquoted fun m' hm' => ?_
        refine ⟨table, ?_, Or.inr ⟨rfl, { s.endToken with phase := .idle },
          hs.endToken (by simp), rfl, rfl, hm'.with_state _ .idle⟩⟩
        rw [Turned, if_neg (by rw [hsep]; decide)]
      · refine hendUnquoted fun m' hm' => ?_
        exact hsame hline rfl (hm'.with_state _ .idle)
      · exact hput hline

/-- One character, with the separator before it if there is one. -/
theorem ensures_turns_at (hmem : E .outOfMemory) (hs : s.Sound)
    (hroom : E .overrun ∨ Ample mem (s.known.length + 1)) (h : At mem table s m) (c : Char) :
    Ensures (turns mem 3 c) m (fun _ m' => ∃ table', Turned mem table s c table' ∧
      At mem table' (s.next c) m') E := by
  rcases h with ⟨hstate, hfollows⟩ | ⟨hstate, before, hbefore, hidle, rfl, hfollows⟩
  · exact ensures_turns_follows hmem hs hroom hstate hfollows 1 c
  · rw [ensures_turns_sep hstate]
    refine (ensures_handleSep_follows hmem hfollows hbefore hidle).imp ?_
    rintro _ m' ⟨hinitial, hsep⟩
    exact ensures_turns_follows hmem hs hroom hinitial hsep 0 c

/-- Whatever the table had under a key, it still has. -/
def Extends (table table' : Table) : Prop :=
  ∀ key value, configGet table key = some value → configGet table' key = some value

theorem Extends.trans {table'' : Table} (h : Extends table table') (h' : Extends table' table'') :
    Extends table table'' :=
  fun key value hget => h' key value (h key value hget)

theorem key_atNewline (s : Reading) : s.atNewline.key = s.key := by
  rw [Reading.atNewline]
  split_ifs <;> rfl

theorem extends_turned (hs : s.Sound) (hvalued : Valued table) {c : Char}
    (h : Turned mem table s c table') : Extends table table' := by
  intro key value hget
  rw [Turned] at h
  split_ifs at h with hc
  · rw [Enters] at h
    cases hkey : s.atNewline.key.filter fun k => (configGet table k).isNone with
    | none =>
        rw [hkey] at h
        exact h ▸ hget
    | some k =>
        rw [hkey] at h
        obtain ⟨token, entered, _, rfl, _⟩ := h
        rw [Option.filter_eq_some_iff, key_atNewline, Option.isNone_iff_eq_none] at hkey
        obtain ⟨hk, hnone⟩ := hkey
        rw [← hs.key k hk, configGet_probe hvalued hnone, if_neg, hget]
        intro heq
        rw [← configGet_cString, heq, configGet_cString, hnone] at hget
        cases hget
  · exact h ▸ hget

theorem At.valued (h : At mem table s m) : Valued table := by
  rcases h with ⟨_, hfollows⟩ | ⟨_, _, _, _, _, hfollows⟩
  · exact hfollows.valued
  · exact hfollows.valued

theorem At.table_eq (h : At mem table s m) : m.table = table := by
  rcases h with ⟨_, hfollows⟩ | ⟨_, _, _, _, _, hfollows⟩
  · exact hfollows.table_eq
  · exact hfollows.table_eq

theorem sound_foldl (hs : s.Sound) (text : Str) : (text.foldl Reading.next s).Sound := by
  induction text generalizing s with
  | nil => exact hs
  | cons c rest ih => exact ih (hs.next c)

/-- A text leaves the parser where the reading is. -/
theorem ensures_scan_at (hmem : E .outOfMemory) (hs : s.Sound) {text : Str}
    (hroom : E .overrun ∨ Ample mem (s.known.length + text.length)) (h : At mem table s m) :
    Ensures (scan mem text) m (fun _ m' => Extends table m'.table ∧
      At mem m'.table (text.foldl Reading.next s) m') E := by
  induction text generalizing s table m with
  | nil =>
      obtain rfl := h.table_eq
      exact ⟨fun _ _ hget => hget, h⟩
  | cons c rest ih =>
      rw [List.length_cons] at hroom
      rw [ensures_scan_cons]
      refine (ensures_turns_at hmem hs (hroom.imp id fun hample => hample.mono (by omega)) h
        c).imp ?_
      rintro _ m' ⟨table', hturned, hnext⟩
      have hlength := Reading.length_known_next hs c
      refine (ih (hs.next c) (hroom.imp id fun hample => hample.mono (by omega)) hnext).imp ?_
      rintro _ m'' ⟨hextends, hlast⟩
      exact ⟨(extends_turned hs h.valued hturned).trans hextends, hlast⟩

theorem at_start (mem : Memory) : At mem .leaf {} (startParser mem) := by
  refine Or.inl ⟨rfl, rfl, valued_leaf, ⟨[], ?_⟩, ?_, rfl, rfl, rfl, rfl⟩
  · exact (List.append_nil _).symm
  · rw [startParser, List.length_map, List.length_range]

end Following

section Allocating

variable {mem : Memory} {m : Parser} {α β : Type}

/-- No allocation of the program fails. -/
def Available (x : Scanner α) : Prop := ∀ m, Ensures x m (fun _ _ => True) (· ≠ .outOfMemory)

theorem Available.bind {x : Scanner α} {f : α → Scanner β} (hx : Available x)
    (hf : ∀ a, Available (f a)) : Available (x >>= f) := by
  intro m
  rw [ensures_bind]
  exact (hx m).imp fun a m' _ => hf a m'

theorem available_get {f : Parser → Scanner β} (hf : ∀ m, Available (f m)) :
    Available (get >>= f) := by
  intro m
  rw [ensures_bind, ensures_get]
  exact hf m m

theorem available_pure (a : α) : Available (pure a) := fun _ => trivial

theorem available_modify (f : Parser → Parser) : Available (modify f) := fun _ => trivial

theorem available_overrun : Available (throw .overrun : Scanner α) := by
  intro m
  rw [ensures_throw]
  decide

theorem available_ite {c : Prop} [Decidable c] {x y : Scanner α} (hx : Available x)
    (hy : Available y) : Available (if c then x else y) := by
  split_ifs
  · exact hx
  · exact hy

theorem available_allocate (hmem : ∀ n, mem.fails n = false) : Available (allocate mem) := by
  intro m
  simp only [allocate, hmem, Bool.false_eq_true, if_false, ensures_bind, ensures_get]
  exact trivial

theorem available_store (c : Char) : Available (store c) :=
  available_get fun _ => available_ite (fun _ => trivial) available_overrun

theorem available_put (hmem : ∀ n, mem.fails n = false) (c : Char) : Available (put mem c) := by
  refine Available.bind ?_ fun _ => (available_store c).bind fun _ => available_modify _
  refine available_get fun _ => available_ite ?_ (available_pure _)
  exact (available_allocate hmem).bind fun _ => available_modify _

theorem available_endToken : Available endToken :=
  (available_modify _).bind fun _ => available_store _

theorem available_endUnquoted : Available endUnquoted :=
  available_get fun _ => available_ite available_endToken (available_pure _)

theorem available_readToken : Available readToken :=
  available_get fun _ => available_ite (available_pure _) available_overrun

theorem available_strdup (hmem : ∀ n, mem.fails n = false) (text : Str) :
    Available (strdup mem text) :=
  (available_allocate hmem).bind fun _ => available_pure _

theorem available_handleSep (hmem : ∀ n, mem.fails n = false) : Available (handleSep mem) := by
  refine Available.bind ?_ fun _ => available_modify _
  refine available_get fun _ => available_ite (available_pure _) ?_
  refine available_readToken.bind fun _ => available_get fun _ => ?_
  refine available_ite (available_pure _) ((available_allocate hmem).bind fun _ => ?_)
  exact (available_strdup hmem _).bind fun _ => available_pure _

theorem available_handleNewline (hmem : ∀ n, mem.fails n = false) :
    Available (handleNewline mem) := by
  refine Available.bind ?_ fun _ => available_modify _
  refine available_get fun m => ?_
  cases m.pair with
  | none => exact available_pure _
  | some pair =>
      have hprobe : ∀ text, Available (do
          let value ← strdup mem text
          bstProbe mem { pair with value := some value }) := by
        intro text
        refine (available_strdup hmem text).bind fun value => available_get fun _ => ?_
        refine available_ite ?_ (available_modify _)
        exact (available_allocate hmem).bind fun _ => available_modify _
      refine available_get fun _ => available_ite ?_ ?_
      · exact available_readToken.bind fun text => hprobe text
      · exact (available_pure []).bind fun text => hprobe text

theorem available_turn (hmem : ∀ n, mem.fails n = false) (c : Char) : Available (turn mem c) := by
  have hgoTo : ∀ (state : ParseState) (moved : Bool), Available (do goTo state; return moved) :=
    fun _ _ _ => trivial
  have hput : Available (do put mem c; return true) :=
    (available_put hmem c).bind fun _ => available_pure _
  refine available_get fun m => ?_
  cases m.state with
  | initial =>
      dsimp only
      refine available_ite (hgoTo _ _) (available_ite ?_ (available_ite (hgoTo _ _)
        (available_ite (hgoTo _ _) (available_ite (available_pure _) ?_))))
      · exact (available_modify _).bind fun _ => hgoTo _ _
      · exact (available_modify _).bind fun _ => (available_put hmem c).bind fun _ => hgoTo _ _
  | comment => exact available_ite (hgoTo _ _) (available_pure _)
  | quoted =>
      refine available_ite ?_ (available_ite (hgoTo _ _) hput)
      exact available_endToken.bind fun _ => hgoTo _ _
  | unquoted =>
      have hend : ∀ (state : ParseState) (moved : Bool),
          Available (do endUnquoted; goTo state; return moved) :=
        fun _ _ => available_endUnquoted.bind fun _ => hgoTo _ _
      exact available_ite (hend _ _) (available_ite (hend _ _) (available_ite (hend _ _)
        (available_ite (hend _ _) hput)))
  | handleSep => exact (available_handleSep hmem).bind fun _ => available_pure _
  | handleNewline => exact (available_handleNewline hmem).bind fun _ => available_pure _

theorem available_scan (hmem : ∀ n, mem.fails n = false) (text : Str) :
    Available (scan mem text) := by
  have hturns : ∀ n c, Available (turns mem n c) := by
    intro n c
    induction n with
    | zero => exact available_pure _
    | succ n ih =>
        refine (available_turn hmem c).bind fun moved => ?_
        exact available_ite (available_pure _) ih
  induction text with
  | nil => exact available_pure _
  | cons c rest ih => exact (hturns 3 c).bind fun _ => ih

/-- In ample memory the whole text is read. -/
theorem scan_returns (hmem : ∀ n, mem.fails n = false) {table : Table} {s : Reading}
    (hs : s.Sound) {text : Str} (hample : Ample mem (s.known.length + text.length))
    (h : At mem table s m) :
    ∃ m', (scan mem text).run m = .ok (⟨⟩, m') ∧ Extends table m'.table ∧
      At mem m'.table (text.foldl Reading.next s) m' := by
  have hat := ensures_scan_at (E := (· = .outOfMemory)) rfl hs (Or.inr hample) h
  have havailable := available_scan hmem text m
  cases hrun : (scan mem text).run m with
  | error fault => exact absurd (hat.of_run_eq_error hrun) (havailable.of_run_eq_error hrun)
  | ok r => exact ⟨r.2, rfl, hat.of_run_eq_ok hrun⟩

end Allocating

end FastDCS.TokenBuffer
