import FastDCS.ConfigContents

/-!
The two loops of `config_parse`: the inner one turn by turn over the characters
of a chunk, the outer one over what `fread` gives call by call.
-/

namespace FastDCS.ConfigReads

open FastDCS.Handlers
open FastDCS.ConfigFile
open FastDCS.ConfigContents

def configBufSize : Nat := 1024

/-- What one call of `fread` gives, and whether it meets the end of the file or an
error. -/
structure FreadResult where
  chunk : List Char
  sized : chunk.length ≤ configBufSize
  eof : Bool := false
  error : Bool := false

variable (mem : Memory)

/-- The inner loop from the index `p` on; whether it gets to the end of the chunk
in the turns given. -/
def innerLoop (chunk : List Char) : Nat → Nat → Scanner Bool
  | 0, _ => return false
  | turns + 1, p =>
      match chunk[p]? with
      | none => return true
      | some c => do
          if (← turn mem c) then innerLoop chunk turns (p + 1) else innerLoop chunk turns p

/-- More turns than the inner loop takes. -/
def turnsOfChunk : Nat := 3 * configBufSize + 1

/-- The outer loop from a call of `fread` on; whether it ends after at most `n`
calls. -/
def outerLoop (reads : Nat → FreadResult) : Nat → Nat → Scanner Bool
  | 0, _ => return false
  | n + 1, call => do
      if (← innerLoop mem (reads call).chunk turnsOfChunk 0) then
        if (reads call).eof then return true
        outerLoop reads n (call + 1)
      else return false

/-- `config_parse` of a file that opens: the table of `data` where it returns 0,
and `none` where it takes more than `n` calls of `fread`. -/
def configParseReads (reads : Nat → FreadResult) (n : Nat) : Except Fault (Option Table) := do
  if mem.fails 0 then throw .outOfMemory
  if mem.fails 1 || mem.fails 2 then throw .outOfMemory
  let (ended, m) ← (outerLoop mem reads n 0).run (startParser mem)
  return if ended then some m.table else none

section InnerLoop

variable {mem : Memory} {chunk : List Char} {p : Nat} {E : Fault → Prop}
  {Q : Bool → Parser → Prop} {R : Parser → Prop}

/-- The turns at one character, as the inner loop takes them. -/
theorem ensures_innerLoop_turns {c : Char} (hc : chunk[p]? = some c) {n : Nat}
    (hnext : ∀ m n', n ≤ n' →
      (Ensures (innerLoop mem chunk n' (p + 1)) m Q E ↔ Ensures (scan mem (chunk.drop (p + 1))) m
        (fun _ m' => R m') E)) (k : Nat) (m : Parser)
    (hmoved : Ensures (turns mem k c) m (fun moved _ => moved = true) fun _ => True) :
    Ensures (innerLoop mem chunk (n + k) p) m Q E ↔
      Ensures (turns mem k c) m (fun _ m' => Ensures (scan mem (chunk.drop (p + 1))) m'
        (fun _ m'' => R m'') E) E := by
  induction k generalizing m with
  | zero => exact absurd hmoved Bool.false_ne_true
  | succ k ih =>
      rw [turns, ensures_bind] at hmoved ⊢
      rw [← Nat.add_assoc, innerLoop, hc]
      show Ensures (turn mem c >>= fun moved => if moved then innerLoop mem chunk (n + k) (p + 1)
        else innerLoop mem chunk (n + k) p) m Q E ↔ _
      rw [ensures_bind]
      refine hmoved.congr fun moved m' hrest => ?_
      cases moved with
      | true => exact hnext m' (n + k) (Nat.le_add_right n k)
      | false => exact ih m' hrest

/-- With enough turns the inner loop gets to the end of the chunk and does what
the scan of its characters does. -/
theorem ensures_innerLoop {turns' : Nat} (hturns : 3 * (chunk.length - p) < turns')
    (m : Parser) :
    Ensures (innerLoop mem chunk turns' p) m (fun ended m' => ended = true ∧ R m') E ↔
      Ensures (scan mem (chunk.drop p)) m (fun _ m' => R m') E := by
  induction hleft : chunk.length - p generalizing p turns' m with
  | zero =>
      obtain ⟨t, rfl⟩ := Nat.exists_eq_add_of_lt hturns
      have hend : chunk[p]? = none := List.getElem?_eq_none (by omega)
      have hdrop : chunk.drop p = [] := List.drop_eq_nil_of_le (by omega)
      rw [innerLoop, hend, hdrop]
      exact and_iff_right rfl
  | succ left ih =>
      have hlt : p < chunk.length := by omega
      obtain ⟨t, rfl⟩ : ∃ t, turns' = t + 3 := ⟨turns' - 3, by omega⟩
      rw [List.drop_eq_getElem_cons hlt, ensures_scan_cons]
      refine ensures_innerLoop_turns (List.getElem?_eq_getElem hlt) (fun m' n' hn' => ?_) 3 m
        (ensures_turns_moved chunk[p])
      exact ih (by omega) m' (by omega)

/-- The inner loop consumes every chunk. -/
theorem innerLoop_ends (read : FreadResult) (m : Parser) :
    Ensures (innerLoop mem read.chunk turnsOfChunk 0) m (fun ended _ => ended = true)
      fun _ => True := by
  have hturns : 3 * (read.chunk.length - 0) < turnsOfChunk := by
    have hsized := read.sized
    rw [turnsOfChunk]
    omega
  have hscan : Ensures (scan mem (read.chunk.drop 0)) m (fun _ _ => True) fun _ => True := by
    unfold Ensures
    split <;> trivial
  exact ((ensures_innerLoop hturns m).mpr hscan).imp fun _ _ h => h.1

end InnerLoop

section OuterLoop

variable {mem : Memory} {reads : Nat → FreadResult} {E : Fault → Prop} {R : Bool → Parser → Prop}

/-- One call of `fread` and the scan of its chunk. -/
theorem ensures_outerLoop_succ (n call : Nat) (m : Parser) :
    Ensures (outerLoop mem reads (n + 1) call) m R E ↔
      Ensures (scan mem (reads call).chunk) m (fun _ m' =>
        if (reads call).eof then R true m' else Ensures (outerLoop mem reads n (call + 1)) m' R E)
        E := by
  have hturns : 3 * ((reads call).chunk.length - 0) < turnsOfChunk := by
    have hsized := (reads call).sized
    rw [turnsOfChunk]
    omega
  rw [outerLoop, ensures_bind, ← List.drop_zero (l := (reads call).chunk),
    ← ensures_innerLoop hturns m, List.drop_zero]
  refine (innerLoop_ends (reads call) m).congr fun ended m' hended => ?_
  rw [hended]
  simp only [if_true, true_and]
  cases (reads call).eof with
  | true => exact Iff.rfl
  | false => exact Iff.rfl

/-- The chunks of `len` calls from one on. -/
def chunksFrom (reads : Nat → FreadResult) : Nat → Nat → List (List Char)
  | _, 0 => []
  | call, len + 1 => (reads call).chunk :: chunksFrom reads (call + 1) len

theorem no_eof_cons {len call : Nat} (heof : (reads call).eof = false)
    (hlen : ∀ j < len, (reads (call + 1 + j)).eof = false) :
    ∀ j < len + 1, (reads (call + j)).eof = false := by
  intro j hj
  cases j with
  | zero => exact heof
  | succ j =>
      rw [← Nat.succ_add_eq_add_succ]
      exact hlen j (Nat.lt_of_succ_lt_succ hj)

/-- Where the loop ends, it is at the first end of file; and it meets no fault where
scanning the chunks up to there meets none. -/
theorem ensures_outerLoop_ended (n call : Nat) (m : Parser)
    (hscan : ∀ len, (∀ j < len, (reads (call + j)).eof = false) →
      Ensures (scanChunks mem (chunksFrom reads call (len + 1))) m (fun _ _ => True) E) :
    Ensures (outerLoop mem reads n call) m (fun ended _ => ended = true →
      ∃ len, (∀ j < len, (reads (call + j)).eof = false) ∧ (reads (call + len)).eof = true) E := by
  induction n generalizing call m with
  | zero => exact fun h => absurd h Bool.false_ne_true
  | succ n ih =>
      have hfirst := hscan 0 fun j hj => absurd hj (Nat.not_lt_zero j)
      rw [chunksFrom, scanChunks, ensures_bind] at hfirst
      rw [ensures_outerLoop_succ]
      cases hrun : (scan mem (reads call).chunk).run m with
      | error e => exact (ensures_iff_of_error hrun).mpr ((ensures_iff_of_error hrun).mp hfirst)
      | ok r =>
          rw [ensures_iff_of_ok hrun]
          cases heof : (reads call).eof with
          | true => exact fun _ => ⟨0, fun j hj => absurd hj (Nat.not_lt_zero j), heof⟩
          | false =>
              have hrest := ih (call + 1) r.2 fun len hlen => by
                have hnext := hscan (len + 1) (no_eof_cons heof hlen)
                rwa [chunksFrom, scanChunks, ensures_bind, ensures_iff_of_ok hrun] at hnext
              rw [if_neg Bool.false_ne_true]
              refine hrest.imp fun ended m' h => ?_
              intro hended
              obtain ⟨len, hlen, hlast⟩ := h hended
              exact ⟨len + 1, no_eof_cons heof hlen, Nat.succ_add_eq_add_succ call len ▸ hlast⟩

/-- Where the chunks up to some call cannot be scanned and no end of file comes
before, the loop does not get past them. -/
theorem ensures_outerLoop_faulting {len call : Nat} {m : Parser}
    (hlen : ∀ j < len, (reads (call + j)).eof = false)
    (hscan : Ensures (scanChunks mem (chunksFrom reads call (len + 1))) m (fun _ _ => False)
      fun _ => True) (n : Nat) :
    Ensures (outerLoop mem reads n call) m (fun ended _ => ended = false ∧ n ≤ len)
      fun _ => True := by
  induction n generalizing len call m with
  | zero => exact ⟨rfl, Nat.zero_le len⟩
  | succ n ih =>
      rw [chunksFrom, scanChunks, ensures_bind] at hscan
      rw [ensures_outerLoop_succ]
      cases hrun : (scan mem (reads call).chunk).run m with
      | error e => exact (ensures_iff_of_error hrun).mpr trivial
      | ok r =>
          rw [ensures_iff_of_ok hrun] at hscan ⊢
          cases len with
          | zero => exact hscan.elim
          | succ len =>
              have heof : ¬(reads call).eof = true :=
                Bool.eq_false_iff.mp (hlen 0 (Nat.zero_lt_succ len))
              rw [if_neg heof]
              refine (ih (fun j hj => ?_) hscan).imp fun ended m' h => ⟨h.1, Nat.succ_le_succ h.2⟩
              rw [Nat.succ_add_eq_add_succ]
              exact hlen (j + 1) (Nat.succ_lt_succ hj)

/-- With an end of file ahead the loop ends or meets a fault. -/
theorem ensures_outerLoop_eof {len call : Nat} (m : Parser)
    (hlast : (reads (call + len)).eof = true) :
    Ensures (outerLoop mem reads (len + 1) call) m (fun ended _ => ended = true)
      fun _ => True := by
  induction len generalizing call m with
  | zero =>
      have heof : (reads call).eof = true := hlast
      rw [ensures_outerLoop_succ, heof]
      unfold Ensures
      split <;> trivial
  | succ len ih =>
      rw [ensures_outerLoop_succ]
      cases hrun : (scan mem (reads call).chunk).run m with
      | error e => exact (ensures_iff_of_error hrun).mpr trivial
      | ok r =>
          rw [ensures_iff_of_ok hrun]
          split_ifs
          · rfl
          · exact ih r.2 (Nat.succ_add_eq_add_succ call len ▸ hlast)

end OuterLoop

/-- What is expected of `config_parse`: the inner loop consumes every chunk, the
outer one ends, and where 0 is returned no call that was made has met an error. -/
structure ParsesReads (mem : Memory) (reads : Nat → FreadResult) : Prop where
  consumes : ∀ call m, Ensures (innerLoop mem (reads call).chunk turnsOfChunk 0) m
    (fun ended _ => ended = true) fun _ => True
  ends : ∃ n, configParseReads mem reads n ≠ .ok none
  reported : ∀ n table, configParseReads mem reads n = .ok (some table) →
    ∀ k, (∀ j < k, (reads j).eof = false) → (reads k).error = false

/-- An allocation fails, or the token buffer does not suffice, by the time the
chunks up to a call are scanned. -/
def MemoryGivesOut (mem : Memory) (reads : Nat → FreadResult) (k : Nat) : Prop :=
  mem.fails 0 = true ∨ mem.fails 1 = true ∨ mem.fails 2 = true ∨
    ∃ fault, (scanChunks mem (chunksFrom reads 0 (k + 1))).run (startParser mem) = .error fault

/-- A call reaches the end of the file, and neither it nor one before has met an
error, or the memory gives out before. -/
def EndsSoundly (mem : Memory) (reads : Nat → FreadResult) : Prop :=
  ∃ k, (∀ j < k, (reads j).eof = false) ∧
    ((reads k).eof = true ∧ (∀ j ≤ k, (reads j).error = false) ∨ MemoryGivesOut mem reads k)

section Endings

variable {mem : Memory} {reads : Nat → FreadResult}

theorem configParseReads_eq (h0 : mem.fails 0 = false) (h1 : mem.fails 1 = false)
    (h2 : mem.fails 2 = false) (n : Nat) :
    configParseReads mem reads n =
      ((outerLoop mem reads n 0).run (startParser mem)).map fun r =>
        if r.1 then some r.2.table else none := by
  rw [configParseReads, h0, h1, h2]
  cases hrun : (outerLoop mem reads n 0).run (startParser mem) with
  | error fault =>
      simp only [Bool.or_self, Bool.false_eq_true, if_false]
      rfl
  | ok r =>
      simp only [Bool.or_self, Bool.false_eq_true, if_false]
      rfl

/-- What holds where the outer loop returns tells whether there is a result. -/
theorem isSome_of_configParseReads (h0 : mem.fails 0 = false) (h1 : mem.fails 1 = false)
    (h2 : mem.fails 2 = false) {n : Nat} {result : Option Table}
    (hresult : configParseReads mem reads n = .ok result) {R : Bool → Prop}
    (hloop : Ensures (outerLoop mem reads n 0) (startParser mem) (fun ended _ => R ended)
      fun _ => True) : R result.isSome := by
  rw [configParseReads_eq h0 h1 h2] at hresult
  cases hrun : (outerLoop mem reads n 0).run (startParser mem) with
  | error fault =>
      rw [hrun] at hresult
      cases hresult
  | ok r =>
      rw [hrun] at hresult
      have hended := (ensures_iff_of_ok hrun).mp hloop
      rw [← Except.ok.inj hresult]
      cases hr : r.1 with
      | true => simpa [hr] using hended
      | false => simpa [hr] using hended

theorem endsSoundly_of_parsesReads (h : ParsesReads mem reads) : EndsSoundly mem reads := by
  by_contra hunsound
  have hmemory : ∀ k, (∀ j < k, (reads j).eof = false) → ¬MemoryGivesOut mem reads k :=
    fun k hk hgone => hunsound ⟨k, hk, Or.inr hgone⟩
  have hstart := hmemory 0 fun j hj => absurd hj (Nat.not_lt_zero j)
  simp only [MemoryGivesOut, not_or, Bool.not_eq_true] at hstart
  obtain ⟨h0, h1, h2, _⟩ := hstart
  have hscan : ∀ len, (∀ j < len, (reads (0 + j)).eof = false) →
      Ensures (scanChunks mem (chunksFrom reads 0 (len + 1))) (startParser mem)
        (fun _ _ => True) fun _ => False := by
    intro len hlen
    simp only [Nat.zero_add] at hlen
    cases hrun : (scanChunks mem (chunksFrom reads 0 (len + 1))).run (startParser mem) with
    | error fault => exact absurd (Or.inr (Or.inr (Or.inr ⟨fault, hrun⟩))) (hmemory len hlen)
    | ok r => exact (ensures_iff_of_ok hrun).mpr trivial
  obtain ⟨n, hn⟩ := h.ends
  obtain ⟨⟨ended, m⟩, hrun, hended⟩ := (ensures_outerLoop_ended n 0 _ hscan).returns
  rw [configParseReads_eq h0 h1 h2, hrun] at hn
  cases ended with
  | false => exact hn rfl
  | true =>
      obtain ⟨k, hk, hlast⟩ := hended rfl
      simp only [Nat.zero_add] at hk hlast
      have htable : configParseReads mem reads n = .ok (some m.table) := by
        rw [configParseReads_eq h0 h1 h2, hrun]
        rfl
      exact hunsound ⟨k, hk, Or.inl ⟨hlast, fun j hj => h.reported n _ htable j fun i hi =>
        hk i (Nat.lt_of_lt_of_le hi hj)⟩⟩

theorem configParseReads_of_fails
    (h : mem.fails 0 = true ∨ mem.fails 1 = true ∨ mem.fails 2 = true) (n : Nat) :
    configParseReads mem reads n = .error .outOfMemory := by
  rw [configParseReads]
  cases h0 : mem.fails 0 with
  | true => rfl
  | false =>
      have hor : (mem.fails 1 || mem.fails 2) = true := by simpa [h0] using h
      rw [hor]
      rfl

theorem parsesReads_of_endsSoundly (h : EndsSoundly mem reads) : ParsesReads mem reads := by
  have hconsumes : ∀ call m, Ensures (innerLoop mem (reads call).chunk turnsOfChunk 0) m
      (fun ended _ => ended = true) fun _ => True := fun call m => innerLoop_ends _ m
  by_cases hfails : mem.fails 0 = true ∨ mem.fails 1 = true ∨ mem.fails 2 = true
  · have hstop : ∀ n, configParseReads mem reads n = .error .outOfMemory :=
      configParseReads_of_fails hfails
    refine ⟨hconsumes, ⟨0, ?_⟩, fun n table htable => ?_⟩
    · rw [hstop]
      exact fun h => by cases h
    · rw [hstop] at htable
      cases htable
  · obtain ⟨h0, h1, h2⟩ : mem.fails 0 = false ∧ mem.fails 1 = false ∧ mem.fails 2 = false := by
      simpa using hfails
    obtain ⟨k, hk, ⟨hlast, hsound⟩ | hgone⟩ := h
    · refine ⟨hconsumes, ⟨k + 1, fun hnone => ?_⟩, fun n table _ j hj => hsound j ?_⟩
      · have hloop : Ensures (outerLoop mem reads (k + 1) 0) (startParser mem)
            (fun ended _ => ended = true) fun _ => True :=
          ensures_outerLoop_eof _ (by rwa [Nat.zero_add])
        exact Bool.false_ne_true (isSome_of_configParseReads h0 h1 h2 hnone hloop)
      · by_contra hlt
        exact absurd hlast (Bool.eq_false_iff.mp (hj k (Nat.not_le.mp hlt)))
    · obtain ⟨fault, hrun⟩ : ∃ fault,
          (scanChunks mem (chunksFrom reads 0 (k + 1))).run (startParser mem) = .error fault := by
        simpa [MemoryGivesOut, h0, h1, h2] using hgone
      have hloop : ∀ n, Ensures (outerLoop mem reads n 0) (startParser mem)
          (fun ended _ => ended = false ∧ n ≤ k) fun _ => True :=
        ensures_outerLoop_faulting (by simpa using hk) ((ensures_iff_of_error hrun).mpr trivial)
      refine ⟨hconsumes, ⟨k + 1, fun hnone => ?_⟩, fun n table htable => ?_⟩
      · have hle := (isSome_of_configParseReads h0 h1 h2 hnone (hloop (k + 1))).2
        exact absurd hle (Nat.not_succ_le_self k)
      · have hsome := (isSome_of_configParseReads h0 h1 h2 htable (hloop n)).1
        exact absurd hsome.symm Bool.false_ne_true

end Endings

/-- The calls of `fread` on a file whose first read fails, and every one after it. -/
def failingReads : Nat → FreadResult := fun _ => { chunk := [], sized := by decide, error := true }

theorem scanChunks_failingReads (mem : Memory) (call len : Nat) (m : Parser) :
    (scanChunks mem (chunksFrom failingReads call len)).run m = .ok (⟨⟩, m) := by
  induction len generalizing call with
  | zero => rfl
  | succ len ih => exact ih (call + 1)

/-- A read error has no way into the result: nothing but the end of the file and
the memory decides. -/
theorem parsesReads_iff (mem : Memory) (reads : Nat → FreadResult) :
    ParsesReads mem reads ↔ EndsSoundly mem reads :=
  ⟨endsSoundly_of_parsesReads, parsesReads_of_endsSoundly⟩

theorem not_every_file_parsesReads :
    ¬∀ (mem : Memory) (reads : Nat → FreadResult), ParsesReads mem reads := by
  intro h
  obtain ⟨k, _, ⟨hlast, _⟩ | hgone⟩ := endsSoundly_of_parsesReads (h exactMemory failingReads)
  · exact Bool.false_ne_true hlast
  · obtain h0 | h1 | h2 | ⟨fault, hrun⟩ := hgone
    · exact Bool.false_ne_true h0
    · exact Bool.false_ne_true h1
    · exact Bool.false_ne_true h2
    · rw [scanChunks_failingReads] at hrun
      cases hrun

end FastDCS.ConfigReads
