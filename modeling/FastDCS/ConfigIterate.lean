import Mathlib.Algebra.BigOperators.Group.List.Basic
import Mathlib.Data.List.Perm.Subperm
import FastDCS.BstTraversers
import FastDCS.ConfigContents

/-!
`config_file.cc`: `config_iterate` over the table that `config_parse` has made.
-/

namespace FastDCS.ConfigIterate

open FastDCS.Strings
open FastDCS.Handlers
open FastDCS.SearchTrees
open FastDCS.ConfigFile
open FastDCS.ConfigGrammar
open FastDCS.ConfigContents
open FastDCS.BstTables
open FastDCS.BstTraversers

/-- `config_t`, without the characters that `config_parse` reads by. -/
structure Config where
  table : BstTable ConfigPair
  traverser : Traverser ConfigPair := {}
  iterating : Bool := false

/-- `config_iterate` of data that are not NULL, with the number of nested calls there is room for. -/
def configIterate (calls : Nat) (data : Config) : Except Abort (Option ConfigPair × Config) := do
  let next := if data.iterating then bstTNext ConfigPair.key calls data.table data.traverser
    else bstTFirst calls data.table
  let (pair, table, traverser) ← next
  return (pair, { table := table, traverser := traverser, iterating := true })

/-- What `n` calls return, and what they leave. -/
def iterateTimes (calls : Nat) : Nat → Config → Except Abort (List (Option ConfigPair) × Config)
  | 0, data => return ([], data)
  | n + 1, data => do
      let (pair, data) ← configIterate calls data
      let (pairs, data) ← iterateTimes calls n data
      return (pair :: pairs, data)

/-- What `config_parse` leaves with a table. -/
def parsed (table : Table) : Config where
  table := .ofRoot table

section Loading

variable {mem : Memory} {E : Fault → Prop} {P : Table → Prop}

theorem maintains_modify_table {f : Parser → Parser} (hf : ∀ m, (f m).table = m.table) :
    Maintains (fun m => P m.table) E (modify f : Scanner PUnit) :=
  maintains_modify fun m hm => (hf m).symm ▸ hm

theorem maintains_allocate (hmem : ∀ n, mem.fails n = true → E .outOfMemory) :
    Maintains (fun m => P m.table) E (allocate mem) := by
  intro m hm
  simp only [allocate, ensures_bind, ensures_get, ensures_ite, ensures_throw]
  exact ⟨fun h => hmem _ h, fun _ => hm⟩

theorem maintains_store (hover : E .overrun) (c : Char) :
    Maintains (fun m => P m.table) E (store c) := by
  intro m hm
  simp only [store, ensures_bind, ensures_get, ensures_ite, ensures_throw]
  exact ⟨fun _ => hm, fun _ => hover⟩

theorem maintains_put (hmem : ∀ n, mem.fails n = true → E .outOfMemory) (hover : E .overrun)
    (c : Char) : Maintains (fun m => P m.table) E (put mem c) := by
  have henlarge : Maintains (fun m => P m.table) E (enlarge mem) := by
    refine maintains_get.bind fun m => Maintains.ite ?_ (maintains_pure _)
    exact (maintains_allocate hmem).bind fun _ => maintains_modify_table fun _ => rfl
  refine henlarge.bind fun _ => (maintains_store hover c).bind fun _ => ?_
  exact maintains_modify_table fun _ => rfl

theorem maintains_endToken (hover : E .overrun) :
    Maintains (fun m => P m.table) E endToken :=
  Maintains.bind (maintains_modify_table fun _ => rfl) fun _ => maintains_store hover _

theorem maintains_endUnquoted (hover : E .overrun) :
    Maintains (fun m => P m.table) E endUnquoted :=
  maintains_get.bind fun _ => Maintains.ite (maintains_endToken hover) (maintains_pure _)

theorem maintains_readToken (hover : E .overrun) :
    Maintains (fun m => P m.table) E readToken :=
  maintains_get.bind fun _ => Maintains.ite (maintains_pure _) (maintains_throw hover)

theorem maintains_strdup (hmem : ∀ n, mem.fails n = true → E .outOfMemory) (text : Str) :
    Maintains (fun m => P m.table) E (strdup mem text) :=
  (maintains_allocate hmem).bind fun _ => maintains_pure _

theorem maintains_handleSep (hmem : ∀ n, mem.fails n = true → E .outOfMemory)
    (hover : E .overrun) : Maintains (fun m => P m.table) E (handleSep mem) := by
  have hpair : Maintains (fun m => P m.table) E (newPair mem) := by
    refine maintains_get.bind fun _ => Maintains.ite (maintains_pure _) ?_
    refine (maintains_readToken hover).bind fun token => maintains_get.bind fun _ => ?_
    refine Maintains.ite (maintains_pure _) ((maintains_allocate hmem).bind fun _ => ?_)
    exact (maintains_strdup hmem token).bind fun _ => maintains_pure _
  exact hpair.bind fun _ => maintains_modify_table fun _ => rfl

theorem maintains_handleNewline (hmem : ∀ n, mem.fails n = true → E .outOfMemory)
    (hover : E .overrun)
    (hprobe : ∀ table pair, P table → P (table.probe ConfigPair.key pair)) :
    Maintains (fun m => P m.table) E (handleNewline mem) := by
  have hinsert : ∀ pair, Maintains (fun m => P m.table) E (bstProbe mem pair) := by
    intro pair
    have hmodify : Maintains (fun m => P m.table) E (modify fun m : Parser =>
        { m with table := m.table.probe ConfigPair.key pair }) :=
      maintains_modify fun m hm => hprobe _ _ hm
    refine maintains_get.bind fun _ => Maintains.ite ?_ hmodify
    exact (maintains_allocate hmem).bind fun _ => hmodify
  have hpair : Maintains (fun m => P m.table) E (insertPair mem) := by
    refine maintains_get.bind fun m => ?_
    cases m.pair with
    | none => exact maintains_pure _
    | some pair =>
        have htext : ∀ text, Maintains (fun m => P m.table) E (do
            let value ← strdup mem text
            bstProbe mem { pair with value := some value }) :=
          fun text => (maintains_strdup hmem text).bind fun _ => hinsert _
        refine maintains_get.bind fun _ => Maintains.ite ?_ (htext [])
        exact (maintains_readToken hover).bind htext
  exact hpair.bind fun _ => maintains_modify_table fun _ => rfl

/-- What putting a pair in keeps true of the table, a turn keeps true. -/
theorem maintains_turn (hmem : ∀ n, mem.fails n = true → E .outOfMemory) (hover : E .overrun)
    (hprobe : ∀ table pair, P table → P (table.probe ConfigPair.key pair)) (c : Char) :
    Maintains (fun m => P m.table) E (turn mem c) := by
  have hgo : ∀ (x : Scanner PUnit) (state : ParseState) (moved : Bool),
      Maintains (fun m => P m.table) E x →
        Maintains (fun m => P m.table) E (do x; goTo state; return moved) := by
    intro x state moved hx
    refine hx.bind fun _ => Maintains.bind ?_ fun _ => maintains_pure _
    exact maintains_modify_table fun _ => rfl
  have hto : ∀ (state : ParseState) (moved : Bool),
      Maintains (fun m => P m.table) E (do goTo state; return moved) :=
    fun state moved => Maintains.bind (maintains_modify_table fun _ => rfl) fun _ =>
      maintains_pure _
  have hstart : Maintains (fun m => P m.table) E startToken := maintains_modify_table fun _ => rfl
  have hput := maintains_put hmem hover c (P := P)
  have hend := maintains_endUnquoted hover (P := P)
  refine maintains_get.bind fun m => ?_
  cases m.state with
  | initial =>
      refine Maintains.ite (hto _ _) (Maintains.ite (hgo _ _ _ hstart) ?_)
      refine Maintains.ite (hto _ _) (Maintains.ite (hto _ _) ?_)
      refine Maintains.ite (maintains_pure _) (hstart.bind fun _ => ?_)
      exact hgo _ _ _ hput
  | comment => exact Maintains.ite (hto _ _) (maintains_pure _)
  | quoted =>
      refine Maintains.ite (hgo _ _ _ (maintains_endToken hover)) (Maintains.ite (hto _ _) ?_)
      exact hput.bind fun _ => maintains_pure _
  | unquoted =>
      refine Maintains.ite (hgo _ _ _ hend) (Maintains.ite (hgo _ _ _ hend) ?_)
      refine Maintains.ite (hgo _ _ _ hend) (Maintains.ite (hgo _ _ _ hend) ?_)
      exact hput.bind fun _ => maintains_pure _
  | handleSep => exact (maintains_handleSep hmem hover).bind fun _ => maintains_pure _
  | handleNewline =>
      exact (maintains_handleNewline hmem hover hprobe).bind fun _ => maintains_pure _

theorem maintains_scan (hmem : ∀ n, mem.fails n = true → E .outOfMemory) (hover : E .overrun)
    (hprobe : ∀ table pair, P table → P (table.probe ConfigPair.key pair)) (text : List Char) :
    Maintains (fun m => P m.table) E (scan mem text) := by
  have hturns : ∀ c n, Maintains (fun m => P m.table) E (turns mem n c) := by
    intro c n
    induction n with
    | zero => exact maintains_pure _
    | succ n ih =>
        refine (maintains_turn hmem hover hprobe c).bind fun _ => ?_
        exact Maintains.ite (maintains_pure _) ih
  induction text with
  | nil => exact maintains_pure _
  | cons c rest ih => exact (hturns c 3).bind fun _ => ih

/-- A table made with calls of `bst_probe`. -/
def Probed (table : Table) : Prop :=
  ∃ pairs : List ConfigPair, (parsed table).table =
    pairs.foldl (fun table pair => table.probe ConfigPair.key pair) {}

theorem Probed.probe {table : Table} (h : Probed table) (pair : ConfigPair) :
    Probed (table.probe ConfigPair.key pair) := by
  obtain ⟨pairs, hpairs⟩ := h
  refine ⟨pairs ++ [pair], ?_⟩
  rw [List.foldl_append, ← hpairs]
  exact (BstTable.ofRoot_probe _ _ _).symm

theorem probed_of_parse {file : Option (List (List Char))} {table : Table}
    (hparse : configParse mem file = .ok table) : Probed table := by
  cases file with
  | none =>
      rw [configParse] at hparse
      cases hfails : mem.fails 0 with
      | true =>
          rw [hfails] at hparse
          cases hparse
      | false =>
          rw [hfails] at hparse
          cases hparse
  | some chunks =>
      have hscan : Ensures (scan mem chunks.flatten) (startParser mem)
          (fun _ m => Probed m.table) fun _ => True :=
        maintains_scan (fun _ _ => trivial) trivial (fun _ pair h => h.probe pair)
          chunks.flatten _ ⟨[], rfl⟩
      have hspec := configParse_spec (P := Probed) trivial hscan
      rw [hparse] at hspec
      exact hspec

/-- The table of `config_parse` is ordered, and its nodes are counted. -/
theorem intact_of_parse {file : Option (List (List Char))} {table : Table}
    (hparse : configParse mem file = .ok table) :
    Intact ConfigPair.key (parsed table).table := by
  obtain ⟨pairs, hpairs⟩ := probed_of_parse hparse
  rw [hpairs]
  exact intact_probes pairs

end Loading

section Runs

variable {data : Config} {rest : List ConfigPair}

/-- Where the iteration stands when `rest` is to come. -/
structure Positioned (data : Config) (rest : List ConfigPair) : Prop where
  intact : Intact ConfigPair.key data.table
  place : if data.iterating then Traversing data.table data.traverser rest
    else rest = data.table.root.toList

theorem positioned_parsed {table : Table} (hintact : Intact ConfigPair.key (parsed table).table) :
    Positioned (parsed table) table.toList :=
  ⟨hintact, rfl⟩

theorem configIterate_steps (h : Positioned data rest) (calls : Nat) :
    match configIterate (calls + 3) data with
    | .ok (pair, data') => data'.iterating = true ∧
        Stepped ConfigPair.key data.table rest pair data'.table data'.traverser
    | .error abort => abort = .treeTooBig ∧ bstMaxHeight + 1 < data.table.root.levels ∧
        2 ^ bstMaxHeight ≤ data.table.root.size := by
  have hsteps : Steps ConfigPair.key data.table rest
      (if data.iterating then bstTNext ConfigPair.key (calls + 3) data.table data.traverser
        else bstTFirst (calls + 3) data.table) := by
    have hplace := h.place
    split_ifs at hplace ⊢
    · exact bstTNext_steps h.intact hplace calls
    · rw [hplace]
      exact bstTFirst_steps h.intact (calls + 1)
  rw [configIterate]
  cases hrun : (if data.iterating then
      bstTNext ConfigPair.key (calls + 3) data.table data.traverser
    else bstTFirst (calls + 3) data.table) with
  | error abort =>
      rw [hrun] at hsteps
      exact hsteps
  | ok result =>
      rw [hrun] at hsteps
      exact ⟨rfl, hsteps⟩

/-- The next call goes on from where this one has come to. -/
theorem positioned_of_stepped {data' : Config} {pair : Option ConfigPair}
    (hiterating : data'.iterating = true)
    (h : Stepped ConfigPair.key data.table rest pair data'.table data'.traverser) :
    Positioned data' (following data.table.root.toList rest) := by
  refine ⟨h.intact, ?_⟩
  rw [if_pos hiterating]
  exact h.traversing

/-- The calls up to the first NULL return what is to come, one after the other. -/
theorem iterateTimes_ok (h : Positioned data rest)
    (hfits : data.table.root.levels ≤ bstMaxHeight + 1 ∨
      data.table.root.size < 2 ^ bstMaxHeight) (calls : Nat) {n : Nat} (hn : n ≤ rest.length + 1) :
    ∃ data', iterateTimes (calls + 3) n data =
        .ok ((rest.map some ++ [none]).take n, data') ∧
      data'.table.root.toList = data.table.root.toList := by
  induction n generalizing data rest with
  | zero => exact ⟨data, rfl, rfl⟩
  | succ n ih =>
      have hsteps := configIterate_steps h calls
      cases hrun : configIterate (calls + 3) data with
      | error abort =>
          rw [hrun] at hsteps
          obtain ⟨_, hdeep, hbig⟩ := hsteps
          rcases hfits with hfits | hfits
          · exact absurd hdeep (Nat.not_lt.mpr hfits)
          · exact absurd hfits (Nat.not_lt.mpr hbig)
      | ok result =>
          obtain ⟨pair, next⟩ := result
          rw [hrun] at hsteps
          obtain ⟨hiterating, hstepped⟩ := hsteps
          obtain rfl : pair = rest.head? := hstepped.returned
          have hnext := positioned_of_stepped hiterating hstepped
          have hfits' : next.table.root.levels ≤ bstMaxHeight + 1 ∨
              next.table.root.size < 2 ^ bstMaxHeight := by
            rcases hfits with hfits | hfits
            · rw [hstepped.same (Or.inl hfits)]
              exact Or.inl hfits
            · rw [← SearchTree.length_toList, hstepped.items, SearchTree.length_toList]
              exact Or.inr hfits
          cases rest with
          | nil =>
              obtain rfl : n = 0 := by
                rw [List.length_nil] at hn
                omega
              refine ⟨next, ?_, hstepped.items⟩
              rw [iterateTimes, hrun]
              rfl
          | cons first rest =>
              obtain ⟨data', htimes, hitems⟩ := ih hnext hfits' (Nat.succ_le_succ_iff.mp hn)
              refine ⟨data', ?_, hitems.trans hstepped.items⟩
              rw [following] at htimes
              rw [iterateTimes, hrun]
              dsimp only [bind, Except.bind]
              rw [htimes]
              rfl

/-- Where balancing is not possible, only nodes that the stack reaches are returned. -/
theorem path_length_le (h : Positioned data rest)
    (hbig : 2 ^ bstMaxHeight ≤ data.table.root.size) (calls : Nat)
    (hrun : ∃ result, iterateTimes (calls + 3) rest.length data = .ok result) :
    ∀ pair ∈ rest, (data.table.root.path ConfigPair.key pair.key []).length ≤ bstMaxHeight := by
  induction rest generalizing data with
  | nil =>
      intro pair hpair
      cases hpair
  | cons first rest ih =>
      obtain ⟨result, hrun⟩ := hrun
      have hsteps := configIterate_steps h calls
      rw [List.length_cons, iterateTimes] at hrun
      cases hcall : configIterate (calls + 3) data with
      | error abort =>
          rw [hcall] at hrun
          cases hrun
      | ok called =>
          obtain ⟨pair, next⟩ := called
          rw [hcall] at hsteps hrun
          obtain ⟨hiterating, hstepped⟩ := hsteps
          have htable := hstepped.same (Or.inr hbig)
          have htimes : ∃ result, iterateTimes (calls + 3) rest.length next = .ok result := by
            cases htimes : iterateTimes (calls + 3) rest.length next with
            | error abort =>
                dsimp only [bind, Except.bind] at hrun
                rw [htimes] at hrun
                cases hrun
            | ok result => exact ⟨result, rfl⟩
          have hrest := ih (positioned_of_stepped hiterating hstepped) (htable ▸ hbig) htimes
          rw [htable] at hrest
          intro pair' hpair'
          rcases List.mem_cons.mp hpair' with rfl | hpair'
          · have hplace := hstepped.traversing.place
            rw [hstepped.node, htable] at hplace
            have hpath := hplace.path_eq h.intact.ordered
            rw [hpath]
            exact hstepped.traversing.bounded
          · exact hrest pair' hpair'

end Runs

section Iterations

variable {mem : Memory} {file : Option (List (List Char))} {table : Table} {calls : Nat}

/-- `config_iterate` returns every pair of the table once, by increasing keys, and then
NULL, and `config_get` finds the same before, between and behind these calls. -/
def Iterates (calls : Nat) (table : Table) : Prop :=
  ∃ pairs : List ConfigPair, (pairs.Pairwise fun a b => a.key < b.key) ∧
    (∀ pair, pair ∈ pairs ↔ table.find ConfigPair.key pair.key = some pair) ∧
    ∀ n ≤ pairs.length + 1, ∃ data,
      iterateTimes calls n (parsed table) = .ok ((pairs.map some ++ [none]).take n, data) ∧
      ∀ key, configGet data.table.root key = configGet table key

theorem mem_toList_iff (hordered : table.Ordered ConfigPair.key) (pair : ConfigPair) :
    pair ∈ table.toList ↔ table.find ConfigPair.key pair.key = some pair := by
  rw [hordered.find_eq_some_iff]
  exact (and_iff_left rfl).symm

theorem iterates_of_fits (hintact : Intact ConfigPair.key (parsed table).table)
    (hfits : table.size < 2 ^ bstMaxHeight ∨ table.levels ≤ bstMaxHeight + 1) (calls : Nat) :
    Iterates (calls + 3) table := by
  have hordered : table.Ordered ConfigPair.key := hintact.ordered
  refine ⟨table.toList, hordered, mem_toList_iff hordered, fun n hn => ?_⟩
  obtain ⟨data, htimes, hitems⟩ := iterateTimes_ok (positioned_parsed hintact) hfits.symm calls hn
  refine ⟨data, htimes, fun key => ?_⟩
  rw [configGet, configGet, hordered.find_congr hitems]

theorem fits_of_iterates (hintact : Intact ConfigPair.key (parsed table).table)
    (h : Iterates (calls + 3) table) :
    table.size < 2 ^ bstMaxHeight ∨ table.levels ≤ bstMaxHeight + 1 := by
  have hordered : table.Ordered ConfigPair.key := hintact.ordered
  obtain ⟨pairs, hpairs, hmem, hcalls⟩ := h
  rcases Nat.lt_or_ge table.size (2 ^ bstMaxHeight) with hsmall | hbig
  · exact Or.inl hsmall
  · refine Or.inr ?_
    have hlength : pairs.length = table.toList.length := by
      have hnodup : pairs.Nodup := List.Pairwise.imp (fun hlt heq => (heq ▸ hlt).false) hpairs
      refine ((List.perm_ext_iff_of_nodup hnodup hordered.nodup).mpr fun pair => ?_).length_eq
      rw [hmem, mem_toList_iff hordered]
    obtain ⟨data, htimes, _⟩ := hcalls pairs.length (Nat.le_succ _)
    rw [hlength] at htimes
    have hpath := path_length_le (positioned_parsed hintact) hbig calls ⟨_, htimes⟩
    by_contra hdeep
    obtain ⟨n, hn⟩ : ∃ n, table.levels = n + 1 := ⟨table.levels - 1, by omega⟩
    obtain ⟨above, left, pair, right, rfl, habove⟩ := SearchTree.exists_deepest hn
    have hpair : pair ∈ (SearchTree.plug above (.node left pair right)).toList := by
      rw [SearchTree.toList_plug]
      exact List.mem_append_right _ (List.mem_append_left _ SearchTree.mem_node)
    have hshort := hpath pair hpair
    have hplace := SearchTree.path_place hordered
    rw [parsed, BstTable.ofRoot, hplace, List.length_map] at hshort
    omega

/-- With room for three nested calls, the iteration is complete for every table but
those of 2 ^ 32 pairs or more that are also deeper than a traverser's stack. -/
theorem iterates_iff (hparse : configParse mem file = .ok table) (hcalls : 3 ≤ calls) :
    Iterates calls table ↔
      table.size < 2 ^ bstMaxHeight ∨ table.levels ≤ bstMaxHeight + 1 := by
  obtain ⟨more, rfl⟩ := Nat.exists_eq_add_of_le' hcalls
  constructor
  · exact fits_of_iterates (intact_of_parse hparse)
  · exact fun hfits => iterates_of_fits (intact_of_parse hparse) hfits more

def manyLetters : List Char := "ABCDEFGHIJKLMNOPQRSTUVWXYZabcdefgh".toList

/-- Keys in increasing order make a tree without left links, which is balanced when the
iteration has come down as far as the stack goes. -/
theorem deep_iterates : ∃ table,
    configParse exactMemory (some [manyLetters.flatMap fun c => [c, '=', '\n']]) = .ok table ∧
      bstMaxHeight + 1 < table.levels ∧ Iterates 3 table := by
  have hparse : configParse exactMemory (some [manyLetters.flatMap fun c => [c, '=', '\n']]) =
      .ok (manyLetters.foldr (fun c below =>
        .node .leaf { key := [c], value := some [] } below) .leaf) := by decide +kernel
  exact ⟨_, hparse, by decide +kernel, (iterates_iff hparse le_rfl).mpr (by decide +kernel)⟩

end Iterations

section LargeFiles

/-- Without failing allocations a file of readable lines is read to its end. -/
theorem exists_parsed {lines : List (List Char)} (hlines : ∀ line ∈ lines, '\n' ∉ line)
    (hread : ∀ line ∈ lines, Readable (lexemes line)) :
    ∃ table, configParse exactMemory (some [terminated lines]) = .ok table ∧
      LinesRead lines .leaf table := by
  have hscan : Ensures (scan exactMemory (terminated lines)) (startParser exactMemory)
      (fun _ m => LinesRead lines .leaf m.table ∧ m.state = .initial) (· = .outOfMemory) :=
    ensures_scan_terminated (E := (· = .outOfMemory)) rfl hlines (Or.inr hread)
      (startParser_represents exactMemory) rfl
  have hmemory : Ensures (scan exactMemory (terminated lines)) (startParser exactMemory)
      (fun _ _ => True) (· ≠ .outOfMemory) :=
    maintains_scan (P := fun _ => True) (fun _ h => absurd h Bool.false_ne_true) (by simp)
      (fun _ _ _ => trivial) (terminated lines) _ trivial
  have hflatten : [terminated lines].flatten = terminated lines := by simp
  rw [← hflatten, ← ensures_scanChunks] at hscan hmemory
  obtain ⟨result, hrun, hlinesRead, _⟩ := hscan.returns_of_ne hmemory
  refine ⟨result.2.table, ?_, hlinesRead⟩
  have hcall : configParse exactMemory (some [terminated lines]) =
      (scanChunks exactMemory [terminated lines]).run (startParser exactMemory) >>=
        fun result => .ok result.2.table := rfl
  rw [hcall, hrun]
  rfl

def keyLetters : List Char := "abcdefghijklmnop".toList

/-- All keys of `n` letters. -/
def keys : Nat → List Str
  | 0 => [[]]
  | n + 1 => (keys n).flatMap fun key => keyLetters.map (· :: key)

theorem length_keys (n : Nat) : (keys n).length = 16 ^ n := by
  induction n with
  | zero => rfl
  | succ n ih =>
      have hletters : keyLetters.length = 16 := rfl
      rw [keys, List.length_flatMap]
      simp only [List.length_map, hletters, List.map_const', List.sum_replicate, ih]
      exact (Nat.pow_succ 16 n).symm

theorem nodup_keys (n : Nat) : (keys n).Nodup := by
  induction n with
  | zero => exact List.nodup_singleton _
  | succ n ih =>
      rw [keys, List.nodup_flatMap]
      constructor
      · intro key _
        exact List.Nodup.map (fun c c' h => (List.cons.inj h).1) (by decide)
      · refine ih.imp fun hne => ?_
        show List.Disjoint _ _
        intro word hword hword'
        obtain ⟨c, _, rfl⟩ := List.mem_map.mp hword
        obtain ⟨c', _, heq⟩ := List.mem_map.mp hword'
        exact hne (List.cons.inj heq).2.symm

theorem mem_keys {n : Nat} {key : Str} (h : key ∈ keys n) :
    key.length = n ∧ ∀ c ∈ key, c ∈ keyLetters := by
  induction n generalizing key with
  | zero =>
      obtain rfl := List.mem_singleton.mp h
      exact ⟨rfl, fun c hc => (by cases hc)⟩
  | succ n ih =>
      obtain ⟨tail, htail, hkey⟩ := List.mem_flatMap.mp h
      obtain ⟨c, hc, rfl⟩ := List.mem_map.mp hkey
      obtain ⟨hlength, hletters⟩ := ih htail
      refine ⟨congrArg (· + 1) hlength, fun c' hc' => ?_⟩
      rcases List.mem_cons.mp hc' with rfl | hc'
      · exact hc
      · exact hletters c' hc'

theorem of_mem_keyLetters {c : Char} (hc : c ∈ keyLetters) :
    plain c = true ∧ isSpace c = false ∧
      c ≠ '#' ∧ c ≠ '"' ∧ c ≠ '=' ∧ c ≠ '\n' ∧ c ≠ '\x00' := by
  have hall : keyLetters.all (fun c => decide (plain c = true ∧ isSpace c = false ∧
      c ≠ '#' ∧ c ≠ '"' ∧ c ≠ '=' ∧ c ≠ '\n' ∧ c ≠ '\x00')) = true := by decide
  exact of_decide_eq_true (List.all_eq_true.mp hall c hc)

/-- A line of letters and a separator gives the letters as its key. -/
theorem lexemes_keyLine {c : Char} {rest : Str} (hc : c ∈ keyLetters)
    (hrest : ∀ c ∈ rest, c ∈ keyLetters) :
    lexemes (c :: rest ++ ['=']) = [.token (c :: rest), .sep] := by
  obtain ⟨_, hspace, hhash, hquote, hsep, _⟩ := of_mem_keyLetters hc
  have hplain : ∀ c ∈ rest, plain c = true := fun c hc => (of_mem_keyLetters (hrest c hc)).1
  rw [List.cons_append, lexemes, if_neg hhash, if_neg hquote, if_neg hsep, hspace,
    List.takeWhile_append_of_pos hplain, List.dropWhile_append_of_pos hplain]
  have htake : ['='].takeWhile plain = [] := by decide
  have hdrop : ['='].dropWhile plain = ['='] := by decide
  have hlast : lexemes ['='] = [.sep] := by simp [lexemes]
  rw [htake, hdrop, hlast, List.append_nil]
  rfl

theorem length_le_size {table : Table} (hordered : table.Ordered ConfigPair.key)
    {words : List Str} (hnodup : words.Nodup)
    (hfound : ∀ word ∈ words, (configGet table word).isSome = true)
    (hstring : ∀ word ∈ words, cString word = word) : words.length ≤ table.size := by
  have hsubset : words ⊆ table.toList.map ConfigPair.key := by
    intro word hword
    have hget := hfound word hword
    rw [configGet, hstring word hword] at hget
    cases hfind : table.find ConfigPair.key word with
    | none =>
        rw [hfind] at hget
        cases hget
    | some pair =>
        obtain ⟨hmem, rfl⟩ := hordered.find_eq_some_iff.mp hfind
        exact List.mem_map_of_mem hmem
  have hlength := (List.subperm_of_subset hnodup hsubset).length_le
  rw [List.length_map, SearchTree.length_toList] at hlength
  exact hlength

/-- A file with all keys of nine letters makes a table that is too deep, however it is
built, and that `bst_balance` refuses. -/
theorem large_not_iterates : ∃ table,
    configParse exactMemory (some [terminated ((keys 9).map (· ++ ['=']))]) = .ok table ∧
      ∀ calls, 3 ≤ calls → ¬ Iterates calls table := by
  have hlexemes : ∀ key ∈ keys 9, lexemes (key ++ ['=']) = [.token key, .sep] := by
    intro key hkey
    obtain ⟨hlength, hletters⟩ := mem_keys hkey
    cases key with
    | nil => cases hlength
    | cons c rest =>
        exact lexemes_keyLine (hletters c List.mem_cons_self) fun c' hc' =>
          hletters c' (List.mem_cons_of_mem _ hc')
  have hlines : ∀ line ∈ (keys 9).map (· ++ ['=']), '\n' ∉ line := by
    intro line hline hnewline
    obtain ⟨key, hkey, rfl⟩ := List.mem_map.mp hline
    rcases List.mem_append.mp hnewline with hmem | hmem
    · obtain ⟨_, _, _, _, _, hne, _⟩ := of_mem_keyLetters ((mem_keys hkey).2 _ hmem)
      exact hne rfl
    · exact absurd hmem (by decide)
  have hreadable : ∀ line ∈ (keys 9).map (· ++ ['=']), Readable (lexemes line) := by
    intro line hline
    obtain ⟨key, hkey, rfl⟩ := List.mem_map.mp hline
    rw [hlexemes key hkey]
    refine ⟨by simp, fun piece hpiece w hw => ?_⟩
    rcases List.mem_cons.mp hpiece with rfl | hpiece
    · obtain rfl := Option.some.inj hw
      rw [(mem_keys hkey).1]
      decide
    · obtain rfl := List.mem_singleton.mp hpiece
      cases hw
  have hstring : ∀ key ∈ keys 9, cString key = key := by
    intro key hkey
    refine cString_of_not_mem fun hnul => ?_
    obtain ⟨_, _, _, _, _, _, hne⟩ := of_mem_keyLetters ((mem_keys hkey).2 _ hnul)
    exact hne rfl
  obtain ⟨table, hparse, hread⟩ := exists_parsed hlines hreadable
  have hfound : ∀ key ∈ keys 9, (configGet table key).isSome = true := by
    intro key hkey
    refine (hread.isSome_iff valued_leaf key).mpr (Or.inr ⟨_, List.mem_map_of_mem hkey, ?_⟩)
    rw [hlexemes key hkey]
    rfl
  have hintact := intact_of_parse hparse
  have hsize : 16 ^ 9 ≤ table.size :=
    (length_keys 9).symm ▸ length_le_size hintact.ordered (nodup_keys 9) hfound hstring
  refine ⟨table, hparse, fun calls hcalls hiterates => ?_⟩
  obtain ⟨more, rfl⟩ := Nat.exists_eq_add_of_le' hcalls
  rcases fits_of_iterates hintact hiterates with hsmall | hshallow
  · have hpow : (2 : Nat) ^ bstMaxHeight ≤ 16 ^ 9 := by decide
    omega
  · have hroom := SearchTree.size_lt table
    have hpow : 2 ^ table.levels ≤ 2 ^ (bstMaxHeight + 1) :=
      Nat.pow_le_pow_right Nat.two_pos hshallow
    have hless : (2 : Nat) ^ (bstMaxHeight + 1) ≤ 16 ^ 9 := by decide
    omega

end LargeFiles

end FastDCS.ConfigIterate
