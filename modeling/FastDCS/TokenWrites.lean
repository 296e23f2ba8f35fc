import FastDCS.TokenBuffer

/-!
The indices at which `config_parse` writes into its token buffer, and the
capacity of the buffer at each of them.
-/

namespace FastDCS.TokenWrites

open FastDCS.Strings
open FastDCS.Handlers
open FastDCS.ConfigFile
open FastDCS.ConfigGrammar
open FastDCS.TokenBuffer

/-- The capacity behind the test before a character of a token. -/
def capacity (m : Parser) : Nat := if m.tokCap < m.t then 2 * m.tokCap else m.tokCap

/-- The index that is written at a character, and the capacity then. -/
def tokenWrite (m : Parser) (c : Char) : Option (Nat × Nat) :=
  match m.state with
  | .initial | .handleSep =>
      if c = '#' ∨ c = '"' ∨ c = '\n' ∨ c = '=' ∨ isSpace c then none else some (0, m.tokCap)
  | .quoted =>
      if c = '"' then some (m.t, m.tokCap)
      else if c = '\n' then none
      else some (m.t, capacity m)
  | .unquoted =>
      if c = '#' ∨ c = '\n' ∨ c = '=' ∨ isSpace c then
        if m.t = 0 then none else some (m.t, m.tokCap)
      else some (m.t, capacity m)
  | .comment | .handleNewline => none

/-- Every index at which a byte of the token or its NUL is written is below the
capacity at that time, whatever the memory. -/
def WritesInside (text : Str) : Prop :=
  ∀ (mem : Memory) (before : Str) (c : Char) (behind : Str) (m : Parser),
    text = before ++ c :: behind → (scan mem before).run (startParser mem) = .ok (⟨⟩, m) →
      ∀ index cap, tokenWrite m c = some (index, cap) → index < cap

/-- A character inside a quote. -/
def inQuote (c : Char) : Bool := decide (c ≠ '"') && decide (c ≠ '\n')

/-- What is stored for the pieces of a text: a token with its NUL byte, or as much
of it as there is where a quote does not end on its line or the text ends within
an unquoted token. -/
def stored : List Char → List Str
  | [] => []
  | c :: rest =>
      if c = '#' then stored (rest.dropWhile (· ≠ '\n'))
      else if c = '"' then
        if (rest.dropWhile inQuote).head? = some '"' then
          (rest.takeWhile inQuote ++ ['\x00']) :: stored (rest.dropWhile inQuote).tail
        else rest.takeWhile inQuote :: stored (rest.dropWhile inQuote)
      else if c = '=' ∨ isSpace c then stored rest
      else if rest.dropWhile plain = [] then [c :: rest.takeWhile plain]
      else (c :: rest.takeWhile plain ++ ['\x00']) :: stored (rest.dropWhile plain)
termination_by text => text.length
decreasing_by
  all_goals simp_wf
  · have hle := (List.dropWhile_suffix (l := rest) fun c => !decide (c = '\n')).length_le
    omega
  · have hle := (List.dropWhile_suffix (l := rest) inQuote).length_le
    omega
  · have hle := (List.dropWhile_suffix (l := rest) inQuote).length_le
    omega
  · have hle := (List.dropWhile_suffix (l := rest) plain).length_le
    omega

example : stored "k = \"a\" bc\n\"d\ne".toList =
    ["k\x00".toList, "a\x00".toList, "bc\x00".toList, "d".toList, "e".toList] := by decide +kernel

section Faithful

variable {mem : Memory} {m : Parser}

/-- The buffer is enlarged at most, and a byte is written where `tokenWrite` says. -/
def Stored (write : Option (Nat × Nat)) (m m' : Parser) : Prop :=
  match write with
  | none => m'.token = m.token ∧ m'.tokCap = m.tokCap
  | some (index, cap) => m'.tokCap = cap ∧ ∃ more b, m'.token = (m.token ++ more).set index b

theorem ensures_store_stored {Q : PUnit → Parser → Prop} (c : Char)
    (hQ : Q ⟨⟩ { m with token := m.token.set m.t c }) : Ensures (store c) m Q fun _ => True :=
  ensures_store_token (Or.inl trivial) fun _ => hQ

theorem ensures_put_stored (c : Char) : Ensures (put mem c) m
    (fun _ m' => Stored (some (m.t, capacity m)) m m') fun _ => True := by
  rw [put, ensures_bind, enlarge, ensures_bind, ensures_get, ensures_ite]
  refine ⟨fun hfull => ?_, fun hfits => ?_⟩
  · simp only [ensures_bind, ensures_modify]
    refine ensures_allocate trivial fun n => ensures_store_stored c ⟨?_, _, c, rfl⟩
    rw [capacity, if_pos hfull]
  · simp only [ensures_bind, ensures_pure, ensures_modify]
    refine ensures_store_stored c ⟨?_, [], c, ?_⟩
    · rw [capacity, if_neg hfits]
    · rw [List.append_nil]

theorem ensures_endToken_stored : Ensures endToken m
    (fun _ m' => Stored (some (m.t, m.tokCap)) m m') fun _ => True := by
  rw [endToken, ensures_bind, ensures_modify]
  exact ensures_store_stored (m := { m with gotTok := true }) _
    ⟨rfl, [], _, (congrArg (List.set · m.t '\x00') (List.append_nil m.token)).symm⟩

theorem ensures_handleNewline_stored : Ensures (handleNewline mem) m
    (fun _ m' => Stored none m m') fun _ => True := by
  refine ((ensures_handleNewline trivial (Or.inl trivial)).and_frame
    ensures_handleNewline_frame).imp ?_
  rintro _ m' ⟨hsettled, hcap, _⟩
  exact ⟨hsettled.token, hcap⟩

theorem ensures_handleSep_stored : Ensures (handleSep mem) m
    (fun _ m' => m'.state = .initial ∧ Stored none m m') fun _ => True := by
  simp only [handleSep, newPair, readToken, ensures_bind, ensures_get, ensures_ite,
    ensures_modify, ensures_throw, ensures_pure]
  refine ⟨fun _ => ⟨trivial, rfl, rfl⟩, fun _ => ⟨fun _ =>
    ⟨fun _ => ⟨trivial, rfl, rfl⟩, fun _ => ?_⟩, fun _ => trivial⟩⟩
  exact ensures_allocate trivial fun _ => ensures_strdup trivial fun _ => ⟨trivial, rfl, rfl⟩

theorem ensures_turns_initial_stored (hstate : m.state = .initial) (n : Nat) (c : Char) :
    Ensures (turns mem (n + 2) c) m (fun _ m' => Stored (tokenWrite m c) m m') fun _ => True := by
  have hwrite : tokenWrite m c =
      if c = '#' ∨ c = '"' ∨ c = '\n' ∨ c = '=' ∨ isSpace c then none
      else some (0, m.tokCap) := by
    rw [tokenWrite, hstate]
  rw [ensures_turns_initial hstate, hwrite]
  by_cases hspecial : c = '#' ∨ c = '"' ∨ c = '\n' ∨ c = '=' ∨ isSpace c
  · rw [if_pos hspecial]
    split_ifs
    · exact ⟨rfl, rfl⟩
    · exact ⟨rfl, rfl⟩
    · exact ensures_handleNewline_stored
    · exact ⟨rfl, rfl⟩
    · exact ⟨rfl, rfl⟩
    · tauto
  · rw [if_neg hspecial]
    simp only [not_or] at hspecial
    rw [if_neg hspecial.1, if_neg hspecial.2.1, if_neg hspecial.2.2.1, if_neg hspecial.2.2.2.1,
      if_neg hspecial.2.2.2.2]
    refine (ensures_put_stored c).imp ?_
    rintro _ m' ⟨hcap, hset⟩
    exact ⟨hcap.trans (if_neg (Nat.not_lt_zero _)), hset⟩

/-- A character makes the parser write where `tokenWrite` says, and nowhere else. -/
theorem ensures_turns_stored (hstate : m.state ≠ .handleNewline) (c : Char) :
    Ensures (turns mem 3 c) m (fun _ m' => Stored (tokenWrite m c) m m') fun _ => True := by
  cases hm : m.state with
  | initial => exact ensures_turns_initial_stored hm 1 c
  | comment =>
      rw [ensures_turns_comment hm, tokenWrite, hm]
      dsimp only
      split_ifs
      · exact ensures_handleNewline_stored
      · exact ⟨rfl, rfl⟩
  | quoted =>
      rw [ensures_turns_quoted hm, tokenWrite, hm]
      dsimp only
      split_ifs
      · exact ensures_endToken_stored
      · exact ensures_handleNewline_stored
      · exact ensures_put_stored c
  | unquoted =>
      have hend : ∀ {Q : PUnit → Parser → Prop}, (∀ m', Stored (if m.t = 0 then none else
          some (m.t, m.tokCap)) m m' → Q ⟨⟩ m') → Ensures endUnquoted m Q fun _ => True := by
        intro Q hQ
        rw [endUnquoted, ensures_bind, ensures_get, ensures_ite]
        refine ⟨fun ht => ?_, fun ht => ?_⟩
        · rw [if_neg ht] at hQ
          exact ensures_endToken_stored.imp fun _ m' hm' => hQ m' hm'
        · rw [if_pos (not_not.mp ht)] at hQ
          exact hQ m ⟨rfl, rfl⟩
      have hwrite : tokenWrite m c =
          if c = '#' ∨ c = '\n' ∨ c = '=' ∨ isSpace c then
            if m.t = 0 then none else some (m.t, m.tokCap)
          else some (m.t, capacity m) := by
        rw [tokenWrite, hm]
      rw [ensures_turns_unquoted hm, hwrite]
      generalize (if m.t = 0 then none else some (m.t, m.tokCap)) = write at hend ⊢
      by_cases hends : c = '#' ∨ c = '\n' ∨ c = '=' ∨ isSpace c
      · rw [if_pos hends]
        split_ifs
        · exact hend fun m' h => h
        · refine hend fun m' h => ?_
          refine ensures_handleNewline_stored.imp ?_
          rintro _ m'' ⟨htoken, hcap⟩
          cases write with
          | none => exact ⟨htoken.trans h.1, hcap.trans h.2⟩
          | some write =>
              obtain ⟨hcap', more, b, hset⟩ := h
              exact ⟨hcap.trans hcap', more, b, htoken.trans hset⟩
        · exact hend fun m' h => h
        · exact hend fun m' h => h
        · tauto
      · rw [if_neg hends]
        simp only [not_or] at hends
        rw [if_neg hends.1, if_neg hends.2.1, if_neg hends.2.2.1, if_neg hends.2.2.2]
        exact ensures_put_stored c
  | handleSep =>
      have hwrite : tokenWrite m c = tokenWrite { m with state := .initial } c := by
        rw [tokenWrite, hm]
        rfl
      rw [ensures_turns_sep hm, hwrite]
      refine ensures_handleSep_stored.imp ?_
      rintro _ m' ⟨hinitial, htoken, hcap⟩
      refine (ensures_turns_initial_stored hinitial 0 c).imp fun _ m'' h => ?_
      have hsame : tokenWrite m' c = tokenWrite { m with state := .initial } c := by
        rw [tokenWrite, hinitial, hcap]
        rfl
      rw [hsame] at h
      cases hw : tokenWrite { m with state := .initial } c with
      | none =>
          rw [hw] at h
          exact ⟨h.1.trans htoken, h.2.trans hcap⟩
      | some write =>
          rw [hw] at h
          obtain ⟨hcap', more, b, hset⟩ := h
          exact ⟨hcap', more, b, by rw [hset, htoken]⟩
  | handleNewline => exact absurd hm hstate

end Faithful

section Indices

variable {s : Reading} {c : Char}

/-- The indices that are written at the characters of a text. -/
def indices (s : Reading) : Str → List Nat
  | [] => []
  | c :: rest => ((s.write c).map Prod.fst).toList ++ indices (s.next c) rest

def puts (s : Reading) (w : Str) : Reading := w.foldl Reading.put s

theorem puts_spec (s : Reading) (w : Str) :
    (puts s w).t = s.t + w.length ∧ (puts s w).phase = s.phase := by
  induction w generalizing s with
  | nil => exact ⟨rfl, rfl⟩
  | cons c rest ih =>
      obtain ⟨ht, hphase⟩ := ih (s.put c)
      refine ⟨?_, hphase⟩
      change (puts (s.put c) rest).t = _
      rw [ht, List.length_cons]
      change s.t + 1 + rest.length = _
      omega

/-- Characters of a token are written one behind the other. -/
theorem indices_puts {phase : Phase} {w : Str} (hput : ∀ c ∈ w, ∀ s : Reading, s.phase = phase →
      s.next c = s.put c ∧ (s.write c).map Prod.fst = some s.t) (hs : s.phase = phase)
    (rest : Str) :
    indices s (w ++ rest) = (List.range w.length).map (s.t + ·) ++ indices (puts s w) rest := by
  induction w generalizing s with
  | nil => rfl
  | cons c w ih =>
      obtain ⟨hnext, hwrite⟩ := hput c List.mem_cons_self s hs
      have hrest := ih (fun b hb => hput b (List.mem_cons_of_mem _ hb)) (s := s.put c) hs
      rw [List.cons_append, indices, hnext, hwrite, hrest, List.length_cons, List.range_succ_eq_map,
        List.map_cons, List.map_map, Nat.add_zero, Option.toList_some, List.singleton_append,
        List.cons_append]
      congr 2
      apply List.map_congr_left
      intro k _
      change s.t + 1 + k = s.t + (k + 1)
      omega

theorem next_quoted (hc : inQuote c = true) (hs : s.phase = .quoted) :
    s.next c = s.put c ∧ (s.write c).map Prod.fst = some s.t := by
  rw [inQuote, Bool.and_eq_true, decide_eq_true_iff, decide_eq_true_iff] at hc
  rw [Reading.next, Reading.write, hs]
  dsimp only
  rw [if_neg hc.1, if_neg hc.2, if_neg hc.1, if_neg hc.2]
  exact ⟨rfl, rfl⟩

theorem next_unquoted (hc : plain c = true) (hs : s.phase = .unquoted) :
    s.next c = s.put c ∧ (s.write c).map Prod.fst = some s.t := by
  obtain ⟨hhash, hnewline, hsep, hspace⟩ := of_plain hc
  rw [Reading.next, Reading.write, hs]
  dsimp only
  rw [if_neg hhash, if_neg hnewline, if_neg hsep, if_neg hspace, if_neg]
  · exact ⟨rfl, rfl⟩
  · simp [hhash, hnewline, hsep, hspace]

/-- Outside an unquoted token a newline is what it is between two pieces. -/
theorem indices_newline (hs : s.phase ≠ .unquoted) (rest : Str) :
    indices s ('\n' :: rest) = indices { s with phase := .idle } ('\n' :: rest) := by
  have hidle : ({ s with phase := .idle } : Reading).write '\n' = none ∧
      ({ s with phase := .idle } : Reading).next '\n' = s.newline := ⟨rfl, rfl⟩
  have hsame : s.write '\n' = none ∧ s.next '\n' = s.newline := by
    rw [Reading.write, Reading.next]
    cases hphase : s.phase with
    | idle => exact ⟨rfl, rfl⟩
    | comment => exact ⟨rfl, rfl⟩
    | quoted => exact ⟨rfl, rfl⟩
    | unquoted => exact absurd hphase hs
  rw [indices, indices, hsame.1, hsame.2, hidle.1, hidle.2]

/-- The end of an unquoted token writes its NUL and is read as between two pieces. -/
theorem indices_end (hs : s.phase = .unquoted) (hc : plain c = false) (rest : Str) :
    indices s (c :: rest) = s.t :: indices { s.endToken with phase := .idle } (c :: rest) := by
  have hends : c = '#' ∨ c = '\n' ∨ c = '=' ∨ isSpace c := by
    by_contra hnot
    simp only [not_or] at hnot
    rw [plain] at hc
    simp [hnot.1, hnot.2.2.1, hnot.2.2.2] at hc
  have hquote : c ≠ '"' := by
    rintro rfl
    exact absurd hc (by decide)
  have hwrite : s.write c = some (s.t, s.tokCap) := by
    rw [Reading.write, hs]
    exact if_pos hends
  have hidle : ({ s.endToken with phase := .idle } : Reading).write c = none := by
    rw [Reading.write]
    exact if_pos (by tauto)
  have hnext : s.next c = ({ s.endToken with phase := .idle } : Reading).next c := by
    rw [Reading.next, Reading.next, hs]
    dsimp only
    rw [if_neg hquote]
    rcases hends with hhash | hnewline | hsep | hspace
    · rw [if_pos hhash, if_pos hhash]
    · subst hnewline
      rfl
    · subst hsep
      rfl
    · by_cases hhash : c = '#'
      · rw [if_pos hhash, if_pos hhash]
      · by_cases hnewline : c = '\n'
        · subst hnewline
          rfl
        · by_cases hsep : c = '='
          · subst hsep
            rfl
          · rw [if_neg hhash, if_neg hhash, if_neg hnewline, if_neg hnewline, if_neg hsep,
              if_neg hsep, if_pos hspace, if_pos hspace]
  rw [indices, indices, hwrite, hidle, hnext]
  rfl

theorem indices_comment (hs : s.phase = .comment) (text : Str) :
    indices s text =
      indices { s with phase := .idle } (text.dropWhile fun c => decide (c ≠ '\n')) := by
  induction text with
  | nil => rfl
  | cons c rest ih =>
      by_cases hc : c = '\n'
      · subst hc
        exact indices_newline (by simp [hs]) rest
      · have hnext : s.next c = s := by
          rw [Reading.next, hs]
          exact if_neg hc
        have hwrite : s.write c = none := by rw [Reading.write, hs]
        rw [indices, hwrite, hnext, ih, List.dropWhile_cons, if_pos (decide_eq_true hc)]
        rfl

/-- The first character of an unquoted token. -/
theorem next_token (hs : s.phase = .idle) (hhash : c ≠ '#') (hquote : c ≠ '"')
    (hends : ¬(c = '=' ∨ isSpace c)) :
    ((s.next c).phase = .unquoted ∧ (s.next c).t = 1) ∧ s.write c = some (0, s.tokCap) := by
  have hnewline : c ≠ '\n' := by
    rintro rfl
    exact hends (Or.inr (by decide))
  rw [not_or] at hends
  rw [Reading.next, Reading.write, hs]
  dsimp only
  rw [if_neg hhash, if_neg hquote, if_neg hnewline, if_neg hends.1, if_neg hends.2, if_neg]
  · exact ⟨⟨rfl, rfl⟩, rfl⟩
  · simp [hhash, hquote, hnewline, hends.1, hends.2]

/-- Every piece is written from the beginning of the buffer on. -/
theorem indices_idle (hs : s.phase = .idle) (text : Str) :
    indices s text = (stored text).flatMap fun piece => List.range piece.length := by
  have hshift : ∀ n, (List.range n).map ((0 : Nat) + ·) = List.range n := by
    intro n
    simp
  fun_induction stored text generalizing s with
  | case1 => rfl
  | case2 rest ih =>
      have hnext : s.next '#' = { s with phase := .comment } := by rw [Reading.next, hs]; rfl
      have hwrite : s.write '#' = none := by rw [Reading.write, hs]; rfl
      rw [indices, hwrite, hnext, indices_comment rfl]
      exact ih rfl
  | case3 rest hclose _ ih =>
      have hnext : s.next '"' = { s with t := 0, phase := .quoted } := by
        rw [Reading.next, hs]
        rfl
      have hwrite : s.write '"' = none := by rw [Reading.write, hs]; rfl
      obtain ⟨rest', hrest'⟩ := List.head?_eq_some_iff.mp hclose
      have hsplit := List.takeWhile_append_dropWhile (p := inQuote) (l := rest)
      rw [hrest'] at hsplit ih ⊢
      have hputs := @indices_puts { s with t := 0, phase := .quoted } .quoted
        (rest.takeWhile inQuote)
        (fun c hc s' hs' => next_quoted (List.mem_takeWhile_imp hc) hs') rfl ('"' :: rest')
      rw [hsplit, hshift] at hputs
      obtain ⟨ht, hphase⟩ := puts_spec { s with t := 0, phase := .quoted }
        (rest.takeWhile inQuote)
      generalize puts { s with t := 0, phase := .quoted } (rest.takeWhile inQuote) = q
        at hputs ht hphase
      have hnext' : q.next '"' = { q.endToken with phase := .idle } := by
        rw [Reading.next, hphase]
        rfl
      have hwrite' : q.write '"' = some (q.t, q.tokCap) := by rw [Reading.write, hphase]; rfl
      have hrest := ih (s := { q.endToken with phase := .idle }) rfl
      rw [List.tail_cons] at hrest ⊢
      rw [indices, hwrite, hnext, hputs, indices, hwrite', hnext', ht, hrest, List.flatMap_cons,
        List.length_append, List.length_singleton, List.range_succ, List.append_assoc,
        Nat.zero_add]
      rfl
  | case4 rest hclose _ ih =>
      have hnext : s.next '"' = { s with t := 0, phase := .quoted } := by
        rw [Reading.next, hs]
        rfl
      have hwrite : s.write '"' = none := by rw [Reading.write, hs]; rfl
      have hputs := @indices_puts { s with t := 0, phase := .quoted } .quoted
        (rest.takeWhile inQuote)
        (fun c hc s' hs' => next_quoted (List.mem_takeWhile_imp hc) hs') rfl
        (rest.dropWhile inQuote)
      rw [List.takeWhile_append_dropWhile, hshift] at hputs
      obtain ⟨_, hphase⟩ := puts_spec { s with t := 0, phase := .quoted } (rest.takeWhile inQuote)
      generalize puts { s with t := 0, phase := .quoted } (rest.takeWhile inQuote) = q
        at hputs hphase
      have hrest : indices q (rest.dropWhile inQuote) =
          indices { q with phase := .idle } (rest.dropWhile inQuote) := by
        cases hdrop : rest.dropWhile inQuote with
        | nil => rfl
        | cons d rest' =>
            have hhead := List.head?_dropWhile_not inQuote rest
            rw [hdrop] at hhead hclose
            have hd : inQuote d = false := by simpa using hhead
            have hquote : d ≠ '"' := by simpa using hclose
            obtain rfl : d = '\n' := by simpa [inQuote, hquote] using hd
            exact indices_newline (by simp [hphase]) rest'
      have hbehind := ih (s := { q with phase := .idle }) rfl
      rw [indices, hwrite, hnext, hputs, hrest, hbehind, List.flatMap_cons]
      rfl
  | case5 c rest hhash hquote hends ih =>
      have hwrite : s.write c = none := by
        rw [Reading.write, hs]
        exact if_pos (by tauto)
      have hnext : (s.next c).phase = .idle := by
        rw [Reading.next, hs]
        dsimp only
        rw [if_neg hhash, if_neg hquote]
        split_ifs
        · rfl
        · rfl
        · exact hs
        · tauto
      rw [indices, hwrite]
      exact ih hnext
  | case6 c rest hhash hquote hends hend =>
      obtain ⟨hnext, hwrite⟩ := next_token hs hhash hquote hends
      have hall := List.takeWhile_append_dropWhile (p := plain) (l := rest)
      rw [hend, List.append_nil] at hall
      have hputs := @indices_puts (s.next c) .unquoted (rest.takeWhile plain)
        (fun c hc s' hs' => next_unquoted (List.mem_takeWhile_imp hc) hs') hnext.1 []
      rw [List.append_nil, hnext.2] at hputs
      rw [indices, hwrite, List.flatMap_cons, List.flatMap_nil, List.append_nil, List.length_cons,
        List.range_succ_eq_map]
      nth_rewrite 1 [← hall]
      rw [hputs]
      simp [indices, Nat.add_comm]
  | case7 c rest hhash hquote hends hend ih =>
      obtain ⟨hnext, hwrite⟩ := next_token hs hhash hquote hends
      obtain ⟨d, behind, hdrop⟩ := List.exists_cons_of_ne_nil hend
      have hd : plain d = false := by
        have hhead := List.head?_dropWhile_not plain rest
        rw [hdrop] at hhead
        simpa using hhead
      have hputs := @indices_puts (s.next c) .unquoted (rest.takeWhile plain)
        (fun c hc s' hs' => next_unquoted (List.mem_takeWhile_imp hc) hs') hnext.1
        (rest.dropWhile plain)
      rw [List.takeWhile_append_dropWhile, hnext.2] at hputs
      obtain ⟨ht, hphase⟩ := puts_spec (s.next c) (rest.takeWhile plain)
      generalize puts (s.next c) (rest.takeWhile plain) = q at hputs ht hphase
      have hbehind := ih (s := { q.endToken with phase := .idle }) rfl
      rw [hdrop] at hputs hbehind ⊢
      rw [indices_end (hphase.trans hnext.1) hd, hbehind, ht, hnext.2] at hputs
      rw [indices, hwrite, hputs, List.flatMap_cons, List.length_append, List.length_cons,
        List.length_singleton, List.range_succ, List.range_succ_eq_map]
      simp [Nat.add_comm]

theorem indices_append (s : Reading) (text rest : Str) :
    indices s (text ++ rest) = indices s text ++ indices (text.foldl Reading.next s) rest := by
  induction text generalizing s with
  | nil => rfl
  | cons c text ih =>
      rw [List.cons_append, indices, indices, ih, List.append_assoc, List.foldl_cons]

end Indices

section Capacities

variable {mem : Memory} {table : Table} {s : Reading} {m : Parser} {c : Char}

/-- As long as all writes are below the first capacity, it is not changed. -/
structure Small (s : Reading) : Prop where
  tokCap : s.tokCap = configTokSize
  t_le : s.t ≤ configTokSize

theorem Small.capacity_eq (hs : Small s) : s.capacity = configTokSize := by
  rw [Reading.capacity, if_neg (not_lt.mpr (hs.t_le.trans hs.tokCap.ge)), hs.tokCap]

theorem Small.write_cap (hs : Small s) {index cap : Nat} (h : s.write c = some (index, cap)) :
    cap = configTokSize := by
  have hcap : ∀ {i : Nat}, some (i, s.tokCap) = some (index, cap) → cap = configTokSize :=
    fun heq => (congrArg Prod.snd (Option.some.inj heq)).symm.trans hs.tokCap
  have hcapacity : ∀ {i : Nat}, some (i, s.capacity) = some (index, cap) → cap = configTokSize :=
    fun heq => (congrArg Prod.snd (Option.some.inj heq)).symm.trans hs.capacity_eq
  rw [Reading.write] at h
  cases hphase : s.phase with
  | idle =>
      rw [hphase] at h
      dsimp only at h
      split_ifs at h
      exact hcap h
  | comment =>
      rw [hphase] at h
      cases h
  | quoted =>
      rw [hphase] at h
      dsimp only at h
      split_ifs at h
      · exact hcap h
      · exact hcapacity h
  | unquoted =>
      rw [hphase] at h
      dsimp only at h
      split_ifs at h
      · exact hcap h
      · exact hcapacity h

theorem Small.next (hs : Small s) (hwrite : ∀ index cap, s.write c = some (index, cap) →
    index < configTokSize) : Small (s.next c) := by
  have hput : (∃ cap, s.write c = some (s.t, cap)) → Small (s.put c) := by
    rintro ⟨cap, h⟩
    exact ⟨hs.capacity_eq, hwrite _ _ h⟩
  rw [Reading.next]
  rw [Reading.write] at hput
  cases hphase : s.phase with
  | idle =>
      dsimp only
      split_ifs
      · exact ⟨hs.tokCap, hs.t_le⟩
      · exact ⟨hs.tokCap, Nat.zero_le _⟩
      · exact ⟨hs.tokCap, hs.t_le⟩
      · exact ⟨hs.tokCap, hs.t_le⟩
      · exact hs
      · have hstart : Small { s with t := 0 } := ⟨hs.tokCap, Nat.zero_le _⟩
        exact ⟨hstart.capacity_eq, (by decide : 0 + 1 ≤ configTokSize)⟩
  | comment =>
      dsimp only
      split_ifs
      · exact ⟨hs.tokCap, hs.t_le⟩
      · exact hs
  | quoted =>
      rw [hphase] at hput
      dsimp only at hput ⊢
      split_ifs at hput ⊢
      · exact ⟨hs.tokCap, hs.t_le⟩
      · exact ⟨hs.tokCap, hs.t_le⟩
      · exact hput ⟨_, rfl⟩
  | unquoted =>
      rw [hphase] at hput
      have hput' : Small (s.put c) := by
        dsimp only at hput
        split_ifs at hput
        · exact hput ⟨_, rfl⟩
        · exact hput ⟨_, rfl⟩
      dsimp only
      split_ifs
      · exact ⟨hs.tokCap, hs.t_le⟩
      · exact ⟨hs.tokCap, hs.t_le⟩
      · exact ⟨hs.tokCap, hs.t_le⟩
      · exact ⟨hs.tokCap, hs.t_le⟩
      · exact hput'

theorem Small.foldl (hs : Small s) {text : Str} (h : ∀ i ∈ indices s text, i < configTokSize) :
    Small (text.foldl Reading.next s) := by
  induction text generalizing s with
  | nil => exact hs
  | cons c rest ih =>
      rw [indices] at h
      refine ih (hs.next ?_) fun i hi => h i (List.mem_append_right _ hi)
      intro index cap hwrite
      refine h index (List.mem_append_left _ ?_)
      rw [hwrite]
      exact List.mem_singleton_self _

/-- Where the reading stands, the parser writes as the reading says. -/
theorem tokenWrite_eq (hs : s.Sound) (h : At mem table s m) (c : Char) :
    tokenWrite m c = s.write c := by
  rcases h with ⟨hstate, hm⟩ | ⟨hstate, before, _, hidle, rfl, hm⟩
  · have hcap : capacity m = s.capacity := by rw [capacity, Reading.capacity, hm.tokCap, hm.t]
    rw [tokenWrite, Reading.write, hstate, hcap, hm.tokCap, hm.t]
    cases hphase : s.phase with
    | idle => rfl
    | comment => rfl
    | quoted => rfl
    | unquoted =>
        dsimp only [Phase.state]
        rw [if_neg (hs.started hphase)]
  · rw [tokenWrite, Reading.write, hstate, hm.tokCap]
    rfl

/-- Memory in which every text of this length is read to its end. -/
def ampleMemory (n : Nat) : Memory where
  fails _ := false
  slack := n
  byte _ := '\x00'

theorem ample_ampleMemory (n : Nat) : Ample (ampleMemory n) n :=
  ⟨Nat.lt_add_of_pos_left (by decide), rfl⟩

theorem indices_lt_iff (text : Str) :
    (∀ i ∈ indices {} text, i < configTokSize) ↔
      ∀ piece ∈ stored text, piece.length ≤ configTokSize := by
  rw [indices_idle rfl]
  constructor
  · intro h piece hpiece
    by_contra hlong
    refine absurd (h configTokSize ?_) (lt_irrefl _)
    exact List.mem_flatMap.mpr ⟨piece, hpiece, List.mem_range.mpr (not_le.mp hlong)⟩
  · intro h i hi
    obtain ⟨piece, hpiece, hlt⟩ := List.mem_flatMap.mp hi
    exact (List.mem_range.mp hlt).trans_le (h piece hpiece)

/-- The writes stay inside the buffer exactly where it has room for every piece
from the beginning: it is enlarged one byte too late. -/
theorem writesInside_iff (text : Str) :
    WritesInside text ↔ ∀ piece ∈ stored text, piece.length ≤ configTokSize := by
  rw [← indices_lt_iff]
  have hsmall : Small {} := ⟨rfl, Nat.zero_le _⟩
  constructor
  · intro hinside
    -- the first write that is not below the first capacity is at that capacity
    have hinitial : ∀ before behind, text = before ++ behind →
        ∀ i ∈ indices {} before, i < configTokSize := by
      intro before
      induction before using List.reverseRecOn with
      | nil =>
          intro behind _ i hi
          cases hi
      | append_singleton before c ih =>
          intro behind htext i hi
          rw [List.append_assoc, List.singleton_append] at htext
          rw [indices_append, indices, indices, List.append_nil] at hi
          have hbefore := ih _ htext
          rcases List.mem_append.mp hi with hold | hnew
          · exact hbefore i hold
          · have hnow := hsmall.foldl hbefore
            have hsound := sound_foldl Reading.sound_start before
            obtain ⟨m, hrun, _, hat⟩ := scan_returns
              (fun _ => rfl) Reading.sound_start
              ((ample_ampleMemory before.length).mono (Nat.zero_add _).le) (at_start _)
            cases hwrite : (before.foldl Reading.next {}).write c with
            | none =>
                rw [hwrite] at hnew
                cases hnew
            | some write =>
                rw [hwrite] at hnew
                obtain rfl : i = write.1 := List.mem_singleton.mp hnew
                have hlt := hinside _ before c behind m htext hrun write.1 write.2
                  ((tokenWrite_eq hsound hat c).trans hwrite)
                exact hlt.trans_eq (hnow.write_cap hwrite)
    intro i hi
    exact hinitial text [] (List.append_nil _).symm i hi
  · intro hall mem before c behind m htext hrun index cap hwrite
    have hsound := sound_foldl Reading.sound_start before
    have hat := (ensures_scan_at (E := fun _ => True) trivial Reading.sound_start (Or.inl trivial)
      (at_start mem)).of_run_eq_ok hrun
    rw [tokenWrite_eq hsound hat.2] at hwrite
    rw [htext, indices_append, indices] at hall
    have hnow := hsmall.foldl fun i hi => hall i (List.mem_append_left _ hi)
    rw [hnow.write_cap hwrite]
    refine hall index (List.mem_append_right _ (List.mem_append_left _ ?_))
    rw [hwrite]
    exact List.mem_singleton_self _

/-- The NUL byte of an unquoted token of 32 characters goes to index 32. -/
theorem not_every_text_writesInside : ¬∀ text, WritesInside text := by
  intro hall
  have hwrite : ((scan (ampleMemory 0) (List.replicate 32 'a')).run
      (startParser (ampleMemory 0))).toOption.map (fun r => tokenWrite r.2 '\n') =
        some (some (32, 32)) := by
    decide +kernel
  cases hrun : (scan (ampleMemory 0) (List.replicate 32 'a')).run (startParser (ampleMemory 0)) with
  | error fault =>
      rw [hrun] at hwrite
      cases hwrite
  | ok r =>
      rw [hrun] at hwrite
      have hlt := hall (List.replicate 32 'a' ++ ['\n']) (ampleMemory 0) _ '\n' [] r.2 rfl hrun 32
        32 (Option.some.inj hwrite)
      exact absurd hlt (lt_irrefl _)

end Capacities

end FastDCS.TokenWrites
