import FastDCS.Connections
import FastDCS.Rings

/-!
The walk of `FindNextMaster` along a tracker group: from the address behind the
own one to the first master that takes a connection, or back to the own one.
-/

namespace FastDCS.GroupWalk

open FastDCS.Strings
open FastDCS.Handlers
open FastDCS.Tracker
open FastDCS.Connections
open FastDCS.Rings
open List (IsRotated)

variable {addresses : List Str} {own : Str} {around : Surroundings} {E : Fault → Prop}

theorem nextAddressLoop_eq_nextOr {first address nextAddr : Str} {addresses : List Str}
    (h : address ∈ addresses) :
    nextAddressLoop first address nextAddr addresses = addresses.nextOr address first := by
  induction addresses generalizing nextAddr with
  | nil => cases h
  | cons candidate rest ih =>
      rw [nextAddressLoop]
      rcases eq_or_ne address candidate with rfl | hne
      · rw [if_pos rfl]
        cases rest with
        | nil => rfl
        | cons next rest => rw [List.nextOr_self_cons_cons]; rfl
      · rw [if_neg hne.symm, List.nextOr_cons_of_ne _ _ _ _ hne]
        exact ih ((List.mem_cons.mp h).resolve_left hne)

theorem nextAddressLoop_of_isRotated (hdistinct : addresses.Nodup) {a b : Str} {rest : List Str}
    (h : addresses ~r a :: b :: rest) :
    nextAddressLoop (addresses.headD []) a [] addresses = b := by
  have ha : a ∈ addresses := h.mem_iff.mpr List.mem_cons_self
  rw [nextAddressLoop_eq_nextOr ha, ← next_eq_of_isRotated hdistinct h ha, List.next]
  rw [headD_eq_get]

theorem ensures_nextMasterAddress_of_isRotated (hdistinct : addresses.Nodup) {s : Handling}
    (hgroup : splitStringUsing s.node.trackerGroup ';' = addresses) {a b : Str} {rest : List Str}
    (h : addresses ~r a :: b :: rest) {Q : Str → Handling → Prop} (hQ : Q b s) :
    Ensures (nextMasterAddress a) s Q E := by
  have ha : a ∈ addresses := h.mem_iff.mpr List.mem_cons_self
  simp only [nextMasterAddress, ensures_bind, ensures_get, hgroup]
  refine ensures_check (Or.inl (decide_eq_true (List.length_pos_of_mem ha))) fun _ => ?_
  rw [ensures_pure, nextAddressLoop_of_isRotated hdistinct h]
  exact hQ

/-- A master of the group. -/
structure Member (addresses : List Str) (own : Str) (node : Node) : Prop where
  isMaster : node.isMaster = true
  server : node.trackerServer = own
  group : splitStringUsing node.trackerGroup ';' = addresses

theorem Member.of_connects {s t : Handling} (hs : Member addresses own s.node)
    (h : Connects around s t) : Member addresses own t.node where
  isMaster := h.isMaster.trans hs.isMaster
  server := h.trackerServer.trans hs.server
  group := by rw [h.trackerGroup, hs.group]

/-- The walk from an address ahead of the master comes back to the master at
last, whatever connections are taken on the way. -/
theorem ensures_findNextMasterLoop_returns (hdistinct : addresses.Nodup) (tried : List Str)
    {fuel : Nat} {ahead : List Str} {address : Str} {s : Handling}
    (hs : Member addresses own s.node) (hring : addresses ~r own :: (tried ++ ahead))
    (haddress : (ahead ++ [own]).head? = some address) (hfuel : ahead.length < fuel)
    (hE : ∀ fault, fault ≠ .outOfFuel → E fault) :
    Ensures (findNextMasterLoop around fuel address) s (fun _ t => Connects around s t) E := by
  have hcheck : E .checkFailed := hE _ (by decide)
  induction ahead generalizing tried address s fuel with
  | nil =>
      obtain rfl : own = address := by simpa using haddress
      obtain ⟨fuel, rfl⟩ := Nat.exists_eq_succ_of_ne_zero (Nat.ne_of_gt hfuel)
      rw [findNextMasterLoop, ensures_bind, ensures_get, if_pos hs.server.symm]
      exact Connects.refl s
  | cons candidate ahead ih =>
      obtain rfl : candidate = address := by simpa using haddress
      obtain ⟨fuel, rfl⟩ := Nat.exists_eq_succ_of_ne_zero (Nat.ne_zero_of_lt hfuel)
      have hcandidate : addresses ~r candidate :: (ahead ++ own :: tried) :=
        isRotated_middle hring
      simp only [findNextMasterLoop, ensures_bind, ensures_get, ensures_ite, ensures_pure]
      refine ⟨fun _ => Connects.refl s, fun _ => ?_⟩
      refine (ensures_connectMaster (Or.inr hcheck)).imp fun ok t hconnect => ?_
      obtain ⟨hst, _, hsocket, _⟩ := hconnect
      refine ⟨fun hok => ?_, fun _ => ?_⟩
      · obtain ⟨fd, hfd⟩ := Option.isSome_iff_exists.mp (hsocket hok)
        exact ensures_masterSocketFd hfd hst
      · have ht := hs.of_connects hst
        obtain ⟨next, rest, hnext⟩ : ∃ next rest, ahead ++ own :: tried = next :: rest := by
          cases ahead with
          | nil => exact ⟨own, tried, rfl⟩
          | cons next ahead => exact ⟨next, ahead ++ own :: tried, rfl⟩
        refine ensures_nextMasterAddress_of_isRotated hdistinct ht.group (hnext ▸ hcandidate) ?_
        have hhead : (ahead ++ [own]).head? = some next := by
          cases ahead with
          | nil => simpa using congrArg List.head? hnext
          | cons first ahead => simpa using congrArg List.head? hnext
        have hring' : addresses ~r own :: (tried ++ [candidate] ++ ahead) := by
          simpa using hring
        have hrest := ih (tried ++ [candidate]) ht hring' hhead (Nat.lt_of_succ_lt_succ hfuel)
        exact hrest.imp fun _ u hu => hst.trans hu

theorem ensures_findNextMaster_returns (hdistinct : addresses.Nodup) {s : Handling}
    (hs : Member addresses own s.node) (hown : own ∈ addresses)
    (hfuel : addresses.length ≤ around.loopFuel) (hE : ∀ fault, fault ≠ .outOfFuel → E fault) :
    Ensures (findNextMaster around) s (fun _ t => Connects around s t) E := by
  obtain ⟨rest, hrest⟩ := exists_isRotated_cons hown
  have hlength : rest.length < around.loopFuel := by
    rw [hrest.perm.length_eq, List.length_cons] at hfuel
    exact hfuel
  rw [findNextMaster, ensures_bind, ensures_get, hs.server, ensures_bind]
  cases rest with
  | nil =>
      -- the group has one master
      have hone : addresses = [own] := List.isRotated_singleton_iff.mp hrest
      simp only [nextMasterAddress, ensures_bind, ensures_get, hs.group, hone]
      refine ensures_check (Or.inl rfl) fun _ => ?_
      rw [ensures_pure]
      refine ensures_findNextMasterLoop_returns hdistinct [] hs hrest ?_ hlength hE
      simp [nextAddressLoop]
  | cons next rest =>
      refine ensures_nextMasterAddress_of_isRotated hdistinct hs.group hrest ?_
      exact ensures_findNextMasterLoop_returns hdistinct [] hs hrest rfl hlength hE

end FastDCS.GroupWalk
