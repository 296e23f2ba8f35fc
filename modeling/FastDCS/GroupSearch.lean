import FastDCS.GroupWalk
import FastDCS.RingAddresses
import FastDCS.SuccessorSearch

/-!
`FindNextMaster` in any group, with repeated addresses or without the own one:
when its walk ends, and when it finds the master that follows.
-/

namespace FastDCS.GroupSearch

open FastDCS.Strings
open FastDCS.Handlers
open FastDCS.Tracker
open FastDCS.Connections
open FastDCS.GroupWalk
open FastDCS.RingAddresses
open FastDCS.SuccessorSearch
open List (IsRotated)

section Successors

/-- What `NextMasterAddress` computes: the entry behind the first match, or the
last entry where nothing matches. -/
def nextAddress (addresses : List Str) (address : Str) : Str :=
  nextAddressLoop (addresses.headD []) address [] addresses

/-- The other masters in cyclic order behind the first entry of the own address,
each where it is first met. -/
def others (addresses : List Str) (own : Str) : List Str :=
  (((addresses.dropWhile (· ≠ own)).tail ++ addresses.takeWhile (· ≠ own)).filter
    (· ≠ own)).eraseDups

variable {addresses : List Str} {own : Str}

theorem nextAddressLoop_mem {first address nextAddr : Str} (h : addresses ≠ []) :
    nextAddressLoop first address nextAddr addresses ∈ first :: addresses := by
  induction addresses generalizing nextAddr with
  | nil => exact absurd rfl h
  | cons candidate rest ih =>
      rw [nextAddressLoop]
      split_ifs
      · cases rest <;> simp
      · cases rest with
        | nil => simp [nextAddressLoop]
        | cons b rest =>
            have hrest : nextAddressLoop first address candidate (b :: rest) ∈ first :: b :: rest :=
              ih (List.cons_ne_nil b rest)
            rcases List.mem_cons.mp hrest with hfirst | hmem
            · rw [hfirst]
              exact List.mem_cons_self
            · exact List.mem_cons_of_mem _ (List.mem_cons_of_mem _ hmem)

theorem nextAddress_mem (h : addresses ≠ []) (address : Str) :
    nextAddress addresses address ∈ addresses := by
  obtain ⟨first, rest, rfl⟩ := List.exists_cons_of_ne_nil h
  rcases List.mem_cons.mp (nextAddressLoop_mem h) with hfirst | hmem
  · rw [nextAddress, hfirst]
    exact List.mem_cons_self
  · exact hmem

theorem eraseDups_nodup {α : Type} [BEq α] [LawfulBEq α] (l : List α) : l.eraseDups.Nodup := by
  induction hn : l.length using Nat.strong_induction_on generalizing l with
  | _ n ih =>
      cases l with
      | nil => simp
      | cons a rest =>
          rw [List.eraseDups_cons]
          have hlt : (rest.filter fun b => !b == a).length < n := by
            rw [← hn]
            exact Nat.lt_succ_of_le (List.length_filter_le _ _)
          refine List.nodup_cons.mpr ⟨?_, ih _ hlt _ rfl⟩
          simp [List.mem_eraseDups]

theorem others_nodup : (others addresses own).Nodup := eraseDups_nodup _

theorem mem_others {a : Str} : a ∈ others addresses own ↔ a ∈ addresses ∧ a ≠ own := by
  rw [others, List.mem_eraseDups, List.mem_filter, decide_eq_true_iff]
  refine and_congr_left fun hne => ?_
  have hsplit : a ∈ addresses ↔
      a ∈ addresses.takeWhile (· ≠ own) ∨ a ∈ addresses.dropWhile (· ≠ own) := by
    rw [← List.mem_append, List.takeWhile_append_dropWhile]
  rw [hsplit, List.mem_append, or_comm]
  refine or_congr_right ?_
  -- the entry left out of the second part is the own address
  cases hdrop : addresses.dropWhile (· ≠ own) with
  | nil => simp
  | cons b rest =>
      have hb : b = own := by
        have hhead := List.head?_dropWhile_not (fun x => decide (x ≠ own)) addresses
        rw [hdrop] at hhead
        simpa using hhead
      simp [hb, hne]

theorem eraseDups_of_nodup {α : Type} [BEq α] [LawfulBEq α] {l : List α} (h : l.Nodup) :
    l.eraseDups = l := by
  induction l with
  | nil => rfl
  | cons a rest ih =>
      obtain ⟨ha, hrest⟩ := List.nodup_cons.mp h
      have hfilter : (rest.filter fun b => !b == a) = rest := by
        rw [List.filter_eq_self]
        intro b hb
        have hne : b ≠ a := fun heq => ha (heq ▸ hb)
        simpa using hne
      rw [List.eraseDups_cons, hfilter, ih hrest]

theorem others_of_nodup {before after : List Str} (h : (before ++ own :: after).Nodup) :
    others (before ++ own :: after) own = after ++ before := by
  obtain ⟨hbefore, hafter, hapart⟩ := List.nodup_append.mp h
  have hkeep : ∀ x ∈ before, decide (x ≠ own) = true := fun x hx =>
    decide_eq_true fun heq => hapart x hx own List.mem_cons_self heq
  have hnodup : (after ++ before).Nodup := by
    refine List.nodup_append.mpr ⟨(List.nodup_cons.mp hafter).2, hbefore, fun x hx y hy heq => ?_⟩
    exact hapart y hy x (List.mem_cons_of_mem _ hx) heq.symm
  rw [others, List.dropWhile_append_of_pos hkeep, List.takeWhile_append_of_pos hkeep]
  simp only [List.dropWhile_cons, List.takeWhile_cons, ne_eq, not_true_eq_false, decide_false,
    Bool.false_eq_true, if_false, List.tail_cons, List.append_nil]
  rw [List.filter_eq_self.mpr]
  · exact eraseDups_of_nodup hnodup
  · intro x hx
    rcases List.mem_append.mp hx with hx | hx
    · have hne : x ≠ own := fun heq => (List.nodup_cons.mp hafter).1 (heq ▸ hx)
      simpa using hne
    · simpa using hkeep x hx

theorem nextAddress_mem_ring (h : addresses ≠ []) (address : Str) :
    nextAddress addresses address ∈ own :: others addresses own := by
  rcases eq_or_ne (nextAddress addresses address) own with heq | hne
  · rw [heq]
    exact List.mem_cons_self
  · exact List.mem_cons_of_mem _ (mem_others.mpr ⟨nextAddress_mem h address, hne⟩)

end Successors

section Walks

/-- The socket of a master: one that is there, or the one an attempt yields. -/
def socketTo (dial : Str → Option Int) (node : Node) (address : Str) : Option Int :=
  (node.masterSockets.find? address).or (dial address)

def connectable (dial : Str → Option Int) (node : Node) (address : Str) : Bool :=
  (socketTo dial node address).isSome

variable {group : List SockAddr} {own : SockAddr} {around : Surroundings}
  {dial : Str → Option Int} {E : Fault → Prop}

/-- With a fixed set of connectable masters an attempt on a member of the group
yields its socket, or leaves the node as it is. -/
theorem ensures_connectMaster_dial (hdial : ∀ k, around.connect k = dial) {s : Handling}
    (hgroup : s.node.trackerGroup = joined group) {a : SockAddr} (ha : a ∈ group) :
    Ensures (connectMaster around a.text) s (fun ok t =>
      ok = connectable dial s.node a.text ∧
        (ok = true → t.node.masterSockets.find? a.text = socketTo dial s.node a.text) ∧
        (ok = false → t.node = s.node)) E := by
  refine (ensures_connectMaster (Or.inl a.parts)).imp fun ok t h => ?_
  obtain ⟨hst, hok, hsocket, _, hnode⟩ := h
  have hcontains : contains s.node.trackerGroup a.text = true := by
    rw [hgroup]
    exact contains_joined.mpr (Occurs.of_mem ha)
  rw [hdial] at hok
  refine ⟨?_, fun htrue => ?_, hnode⟩
  · rw [Bool.eq_iff_iff, hok]
    simp [hcontains, connectable, socketTo]
  · cases hold : s.node.masterSockets.find? a.text with
    | some fd => simp [socketTo, hold, hst.kept a.text fd hold]
    | none =>
        obtain ⟨fd, hfd⟩ := Option.isSome_iff_exists.mp (hsocket htrue)
        have hdialed := (hst.opened a.text fd hfd).resolve_left (by simp [hold])
        obtain ⟨k, hk⟩ := hdialed
        rw [hdial] at hk
        simp [socketTo, hold, hfd, hk]

theorem ensures_nextMasterAddress_eq (hne : group ≠ []) {s : Handling}
    (hgroup : s.node.trackerGroup = joined group) (address : Str) {Q : Str → Handling → Prop}
    (hQ : Q (nextAddress (group.map SockAddr.text) address) s) :
    Ensures (nextMasterAddress address) s Q E := by
  simp only [nextMasterAddress, ensures_bind, ensures_get, hgroup, split_joined]
  refine ensures_check (Or.inl ?_) fun _ => hQ
  simpa [List.length_pos_iff] using hne

/-- The loop of `FindNextMaster` is the search along the successors in the group
that stops at the own address and at connectable ones. -/
theorem ensures_findNextMasterLoop_search (hne : group ≠ [])
    (hdial : ∀ k, around.connect k = dial) {s : Handling}
    (hgroup : s.node.trackerGroup = joined group) (hserver : s.node.trackerServer = own.text)
    (fuel : Nat) {address : Str} (haddress : address ∈ group.map SockAddr.text) :
    Ensures (findNextMasterLoop around fuel address) s
      (fun fd _ => ∃ found,
        search (nextAddress (group.map SockAddr.text))
            (stopAt own.text (connectable dial s.node)) fuel address = some found ∧
          (found = own.text → fd = -1) ∧
          (found ≠ own.text → socketTo dial s.node found = some fd))
      (fun fault => fault = .outOfFuel ∧
        search (nextAddress (group.map SockAddr.text))
          (stopAt own.text (connectable dial s.node)) fuel address = none) := by
  induction fuel generalizing s address with
  | zero => exact ⟨rfl, rfl⟩
  | succ fuel ih =>
      obtain ⟨a, ha, rfl⟩ := List.mem_map.mp haddress
      simp only [findNextMasterLoop, ensures_bind, ensures_get, ensures_ite, ensures_pure]
      refine ⟨fun hown => ?_, fun hown => ?_⟩
      · rw [hserver] at hown
        exact ⟨a.text, search_of_stop (by simp [stopAt, hown]), fun _ => trivial,
          fun hne => absurd hown hne⟩
      · rw [hserver] at hown
        refine (ensures_connectMaster_dial hdial hgroup ha).imp fun ok t hconnect => ?_
        obtain ⟨hok, hfound, hnode⟩ := hconnect
        refine ⟨fun htrue => ?_, fun hfalse => ?_⟩
        · rw [htrue] at hok
          obtain ⟨fd, hfd⟩ := Option.isSome_iff_exists.mp hok.symm
          refine ensures_masterSocketFd ((hfound htrue).trans hfd) ⟨a.text, ?_, ?_, fun _ => hfd⟩
          · exact search_of_stop (by simp [stopAt, ← hok])
          · exact fun heq => absurd heq hown
        · rw [Bool.not_eq_true] at hfalse
          have hgo : stopAt own.text (connectable dial s.node) a.text = false :=
            stopAt_eq_false.mpr ⟨hown, hok.symm.trans hfalse⟩
          have hsame := hnode hfalse
          refine ensures_nextMasterAddress_eq hne (by rw [hsame, hgroup]) a.text ?_
          have hrest := ih (s := t) (by rw [hsame, hgroup]) (by rw [hsame, hserver])
            (nextAddress_mem (by simpa using hne) a.text)
          rw [hsame] at hrest
          rw [search, if_neg (by simp [hgo])]
          exact hrest

end Walks

section Finding

/-- For every set of connectable masters the walk ends, with the socket of the
first one in cyclic order behind the own address, or -1 where no other member
is connectable. -/
def FindsSuccessor (group : List SockAddr) (own : SockAddr) : Prop :=
  ∀ (s : Handling) (around : Surroundings) (dial : Str → Option Int),
    s.node.trackerGroup = joined group → s.node.trackerServer = own.text →
      (∀ k, around.connect k = dial) →
        ∃ bound, ∀ loopFuel, bound ≤ loopFuel → ∃ fd t,
          (findNextMaster { around with loopFuel := loopFuel }).run s = .ok (fd, t) ∧
            match (others (group.map SockAddr.text) own.text).find?
              (connectable dial s.node) with
            | some master => socketTo dial s.node master = some fd
            | none => fd = -1

/-- From the own address the successors lead once round the other masters, in
cyclic order, and back. -/
def LeadsRound (group : List SockAddr) (own : SockAddr) : Prop :=
  List.IsChain (fun a b => nextAddress (group.map SockAddr.text) a = b)
    (own.text :: (others (group.map SockAddr.text) own.text ++ [own.text]))

instance (group : List SockAddr) (own : SockAddr) : Decidable (LeadsRound group own) :=
  inferInstanceAs (Decidable (List.IsChain _ _))

variable {group : List SockAddr} {own : SockAddr}

theorem findsSuccessor_of_leadsRound (h : LeadsRound group own) : FindsSuccessor group own := by
  intro s around dial hgroup hserver hdial
  have hne : group ≠ [] := by
    rintro rfl
    obtain ⟨hnext, _⟩ := List.isChain_cons_cons.mp h
    exact own.text_ne_nil hnext.symm
  have hown : own.text ∉ others (group.map SockAddr.text) own.text := fun hmem =>
    (mem_others.mp hmem).2 rfl
  have hsearch := search_ring hown h (connectable dial s.node)
  refine ⟨(others (group.map SockAddr.text) own.text).length + 1, fun loopFuel hfuel => ?_⟩
  have hlonger := search_mono hfuel hsearch
  have hfixed : ∀ k, Surroundings.connect { around with loopFuel := loopFuel } k = dial := hdial
  have hwalk : Ensures (findNextMaster { around with loopFuel := loopFuel }) s
      (fun fd _ => match (others (group.map SockAddr.text) own.text).find?
        (connectable dial s.node) with
        | some master => socketTo dial s.node master = some fd
        | none => fd = -1) (fun _ => False) := by
    rw [findNextMaster, ensures_bind, ensures_get, hserver, ensures_bind]
    refine ensures_nextMasterAddress_eq hne hgroup own.text ?_
    refine (ensures_findNextMasterLoop_search hne hfixed hgroup hserver loopFuel
      (nextAddress_mem (by simpa using hne) own.text)).mono ?_ ?_
    · rintro fd t ⟨found, hfound, hback, hsocket⟩
      obtain rfl := Option.some.inj (hlonger.symm.trans hfound)
      cases hfirst : (others (group.map SockAddr.text) own.text).find?
        (connectable dial s.node) with
      | none => exact hback (by rw [hfirst, Option.getD_none])
      | some master =>
          rw [hfirst, Option.getD_some] at hsocket
          refine hsocket ?_
          rintro rfl
          exact hown (List.mem_of_find?_eq_some hfirst)
    · rintro fault ⟨_, hnone⟩
      rw [hlonger] at hnone
      cases hnone
  obtain ⟨⟨fd, t⟩, hrun, hresult⟩ := hwalk.returns
  exact ⟨fd, t, hrun, hresult⟩

theorem leadsRound_of_findsSuccessor (h : FindsSuccessor group own) : LeadsRound group own := by
  have hne : group ≠ [] := by
    rintro rfl
    obtain ⟨bound, hbound⟩ := h
      { node :=
          { fdcsEnv := { settings := { trackerGroup := [], trackerServer := own.text } } } }
      { nowTime := 0, connect := fun _ _ => none, loopFuel := 0 } (fun _ => none) rfl rfl
      (fun _ => rfl)
    obtain ⟨fd, t, hrun, _⟩ := hbound bound le_rfl
    cases hrun
  have hown : own.text ∉ others (group.map SockAddr.text) own.text := fun hmem =>
    (mem_others.mp hmem).2 rfl
  have hne' : group.map SockAddr.text ≠ [] := by simpa using hne
  refine (search_ring_iff others_nodup hown fun a _ => nextAddress_mem_ring hne' a).mp ?_
  intro chosen
  -- every chosen master takes the connection with a descriptor of its own
  let dial : Str → Option Int := fun a =>
    if chosen a then some ((group.map SockAddr.text).idxOf a : Int) else none
  let s : Handling :=
    { node :=
        { fdcsEnv :=
            { settings := { trackerGroup := joined group, trackerServer := own.text } } } }
  let around : Surroundings := { nowTime := 0, connect := fun _ => dial, loopFuel := 0 }
  have hchosen : connectable dial s.node = chosen := by
    funext a
    simp only [connectable, socketTo, dial]
    split_ifs with ha <;> simp [ha, s]
  have hsocket : ∀ a fd, socketTo dial s.node a = some fd →
      fd = ((group.map SockAddr.text).idxOf a : Int) := by
    intro a fd hfd
    simp only [socketTo, s, OrderedMap.find?_empty, Option.none_or, dial] at hfd
    split_ifs at hfd
    exact (Option.some.inj hfd).symm
  obtain ⟨bound, hbound⟩ := h s around dial rfl rfl fun _ => rfl
  obtain ⟨fd, t, hrun, hresult⟩ := hbound bound le_rfl
  rw [hchosen] at hresult
  refine ⟨bound, ?_⟩
  have hwalk : Ensures (findNextMaster { around with loopFuel := bound }) s
      (fun fd _ => ∃ found,
        search (nextAddress (group.map SockAddr.text))
            (stopAt own.text (connectable dial s.node)) bound
            (nextAddress (group.map SockAddr.text) own.text) = some found ∧
          (found = own.text → fd = -1) ∧
          (found ≠ own.text → socketTo dial s.node found = some fd)) (fun _ => True) := by
    rw [findNextMaster, ensures_bind, ensures_get, ensures_bind]
    refine ensures_nextMasterAddress_eq hne rfl own.text ?_
    exact (ensures_findNextMasterLoop_search hne (fun _ => rfl) rfl rfl bound
      (nextAddress_mem hne' own.text)).mono (fun _ _ hQ => hQ) fun _ _ => trivial
  obtain ⟨found, hfound, hback, hsock⟩ : ∃ found,
      search (nextAddress (group.map SockAddr.text))
          (stopAt own.text (connectable dial s.node)) bound
          (nextAddress (group.map SockAddr.text) own.text) = some found ∧
        (found = own.text → fd = -1) ∧
        (found ≠ own.text → socketTo dial s.node found = some fd) := hwalk.of_run_eq_ok hrun
  rw [hchosen] at hfound
  rw [hfound]
  refine congrArg some ?_
  cases hfirst : (others (group.map SockAddr.text) own.text).find? chosen with
  | none =>
      rw [hfirst] at hresult
      by_contra hother
      have hindex := hsocket found fd (hsock hother)
      rw [hresult] at hindex
      exact absurd hindex (by omega)
  | some master =>
      rw [hfirst] at hresult
      have hindex := hsocket master fd hresult
      have hmaster := (mem_others.mp (List.mem_of_find?_eq_some hfirst)).1
      have hfoundOther : found ≠ own.text := by
        intro heq
        rw [hback heq] at hindex
        exact absurd hindex (by omega)
      have hsame := hsocket found fd (hsock hfoundOther)
      rw [hindex] at hsame
      exact ((List.idxOf_inj hmaster).mp (Int.natCast_inj.mp hsame)).symm

/-- The own address is in a group the successors lead round. -/
theorem mem_of_leadsRound (h : LeadsRound group own) : own.text ∈ group.map SockAddr.text := by
  have hne : group.map SockAddr.text ≠ [] := by
    intro hnil
    rw [LeadsRound, hnil] at h
    obtain ⟨hnext, _⟩ := List.isChain_cons_cons.mp h
    exact own.text_ne_nil hnext.symm
  rw [LeadsRound, List.isChain_iff_forall_rel_of_append_cons_cons] at h
  obtain ⟨l, a, hl⟩ : ∃ l a, own.text :: others (group.map SockAddr.text) own.text = l ++ [a] :=
    ⟨_, _, (List.dropLast_append_getLast (List.cons_ne_nil _ _)).symm⟩
  have hback := @h a own.text l [] (by
    rw [← List.cons_append, hl, List.append_assoc]
    rfl)
  rw [← hback]
  exact nextAddress_mem hne a

/-- In a group of distinct addresses the successors lead round. -/
theorem leadsRound_of_nodup (hnodup : (group.map SockAddr.text).Nodup) (hown : own ∈ group) :
    LeadsRound group own := by
  obtain ⟨before, after, hsplit⟩ := List.append_of_mem (List.mem_map_of_mem hown)
  rw [LeadsRound]
  rw [hsplit] at hnodup ⊢
  have hring : before ++ own.text :: after ~r (own.text :: after) ++ before :=
    List.isRotated_append
  rw [List.cons_append] at hring
  rw [others_of_nodup hnodup, List.isChain_iff_forall_rel_of_append_cons_cons]
  intro a b l₁ l₂ hl
  rcases List.eq_nil_or_concat l₂ with rfl | ⟨l₃, c, rfl⟩
  · -- the last pair leads back to the own address
    obtain ⟨hback, rfl⟩ : own.text :: (after ++ before) = l₁ ++ [a] ∧ own.text = b := by
      have hl' : (own.text :: (after ++ before)) ++ [own.text] = (l₁ ++ [a]) ++ [b] := by
        simpa using hl
      exact List.append_inj' hl' rfl |>.imp id List.singleton_inj.mp
    cases l₁ with
    | nil =>
        obtain ⟨rfl, hnone⟩ := List.cons.inj hback
        obtain ⟨rfl, rfl⟩ := List.append_eq_nil_iff.mp hnone
        simp [nextAddress, nextAddressLoop]
    | cons first l₁ =>
        obtain ⟨rfl, _⟩ := List.cons.inj hback
        rw [hback] at hring
        have hturn : (own.text :: l₁) ++ [a] ~r [a] ++ (own.text :: l₁) := List.isRotated_append
        exact nextAddressLoop_of_isRotated hnodup (hring.trans hturn)
  · have hmiddle : own.text :: (after ++ before) = l₁ ++ a :: b :: l₃ := by
      have hl' : (own.text :: (after ++ before)) ++ [own.text] = (l₁ ++ a :: b :: l₃) ++ [c] := by
        simpa using hl
      exact (List.append_inj' hl' rfl).1
    rw [hmiddle] at hring
    have hturn : l₁ ++ (a :: b :: l₃) ~r (a :: b :: l₃) ++ l₁ := List.isRotated_append
    exact nextAddressLoop_of_isRotated hnodup (hring.trans hturn)

/-- The walk finds the successor for every set of connectable masters exactly
where the entry behind the first match of each member is the next member in
cyclic order from the own address, and the own one behind the last. -/
theorem findsSuccessor_iff (group : List SockAddr) (own : SockAddr) :
    FindsSuccessor group own ↔ own ∈ group ∧ LeadsRound group own := by
  constructor
  · intro h
    have hround := leadsRound_of_findsSuccessor h
    obtain ⟨a, ha, htext⟩ := List.mem_map.mp (mem_of_leadsRound hround)
    exact ⟨SockAddr.ext htext ▸ ha, hround⟩
  · exact fun h => findsSuccessor_of_leadsRound h.2

/-- From an address outside the group, and in a group with a repeated entry, the
walk does not always end. -/
theorem not_findsSuccessor :
    ¬FindsSuccessor [port3230, otherHost] port32301 ∧
      ¬FindsSuccessor [port3230, otherHost, otherHost] port3230 := by
  constructor
  · intro h
    exact absurd (leadsRound_of_findsSuccessor h) (by decide +kernel)
  · intro h
    exact absurd (leadsRound_of_findsSuccessor h) (by decide +kernel)

end Finding

end FastDCS.GroupSearch
