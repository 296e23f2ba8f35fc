import FastDCS.Connections
import FastDCS.Master

/-!
The tests on address lists, which look for an address as a substring: where
they find the elements of the list and nothing else.
-/

namespace FastDCS.RingAddresses

open FastDCS.Strings
open FastDCS.DelimitedLists
open FastDCS.Messages
open FastDCS.Handlers
open FastDCS.Tracker
open FastDCS.Connections

/-- The text `ip:port` of an address, as it stands in a list. -/
@[ext] structure SockAddr where
  text : Str
  noSeparator : ';' ∉ text
  parts : (splitStringUsing text ':').length = 2
deriving DecidableEq

def joined (addresses : List SockAddr) : Str := [';'].intercalate (addresses.map SockAddr.text)

variable {group visited addresses : List SockAddr} {own request address : SockAddr}

theorem SockAddr.text_ne_nil (address : SockAddr) : address.text ≠ [] := by
  intro h
  have hparts := address.parts
  rw [h] at hparts
  exact absurd hparts (by decide)

theorem split_joined : splitStringUsing (joined addresses) ';' = addresses.map SockAddr.text := by
  refine splitStringUsing_intercalate ?_ ?_
  · intro x hx
    obtain ⟨a, _, rfl⟩ := List.mem_map.mp hx
    exact a.noSeparator
  · intro x hx
    obtain ⟨a, _, rfl⟩ := List.mem_map.mp hx
    exact a.text_ne_nil

/-- An address is found in a list where it is part of one of the elements. -/
def Occurs (address : SockAddr) (addresses : List SockAddr) : Prop :=
  ∃ a ∈ addresses, address.text <:+: a.text

instance (address : SockAddr) (addresses : List SockAddr) : Decidable (Occurs address addresses) :=
  inferInstanceAs (Decidable (∃ a ∈ addresses, address.text <:+: a.text))

theorem Occurs.of_mem (h : address ∈ addresses) : Occurs address addresses :=
  ⟨address, h, List.infix_rfl⟩

theorem contains_joined : contains (joined addresses) address.text = true ↔
    Occurs address addresses := by
  rw [contains, decide_eq_true_iff, joined,
    infix_intercalate_iff address.noSeparator address.text_ne_nil, Occurs]
  simp

theorem contains_passed : contains (joined visited ++ ';' :: own.text) address.text = true ↔
    Occurs address (visited ++ [own]) := by
  rw [contains, decide_eq_true_iff, infix_append_cons_iff address.noSeparator, joined,
    infix_intercalate_iff address.noSeparator address.text_ne_nil, Occurs]
  simp [or_and_right, exists_or]

section Tests

variable (group visited : List SockAddr) (own request address : SockAddr)

def ClosesExactly : Prop :=
  ∀ (node : Node) (proto : TrackerProtocol), node.trackerServer = own.text →
    proto.requestSockAddr = request.text → proto.responseSockAddr = joined visited →
      (Master.closedCircle node proto = true ↔ own = request ∨ own ∈ visited)

/-- The master announced by an election whose circle has closed with the visited
list. -/
def AnnouncesVisited : Prop :=
  ∀ (node : Node) (proto : TrackerProtocol), node.trackerGroup = joined group →
    node.trackerServer = own.text → proto.responseSockAddr = joined visited →
      Master.closedCircle node proto = true →
        ∀ announced, Master.electionResult (splitStringUsing node.trackerGroup ';')
            (proto.responseSockAddr ++ ';' :: node.trackerServer) = some announced →
          ∃ a ∈ visited ++ [own], a.text = announced

def AcceptsMembers : Prop :=
  ∀ around s t, s.node.trackerGroup = joined group →
    (connectMaster around address.text).run s = .ok (true, t) → address ∈ group

end Tests

theorem closesExactly_iff :
    ClosesExactly visited own request ↔ own = request ∨ own ∈ visited ∨ ¬Occurs own visited := by
  have hclosed : ∀ (node : Node) (proto : TrackerProtocol), node.trackerServer = own.text →
      proto.requestSockAddr = request.text → proto.responseSockAddr = joined visited →
        (Master.closedCircle node proto = true ↔ own = request ∨ Occurs own visited) := by
    intro node proto hserver hrequest hresponse
    rw [Master.closedCircle, Bool.or_eq_true, decide_eq_true_iff, hserver, hrequest, hresponse,
      contains_joined, SockAddr.ext_iff, eq_comm]
  constructor
  · intro h
    let node : Node :=
      { fdcsEnv := { settings := { trackerGroup := [], trackerServer := own.text } } }
    let proto : TrackerProtocol :=
      { requestSockAddr := request.text, responseSockAddr := joined visited }
    have hexact := (hclosed node proto rfl rfl rfl).symm.trans (h node proto rfl rfl rfl)
    by_cases hoccurs : Occurs own visited
    · exact (hexact.mp (Or.inr hoccurs)).imp id Or.inl
    · exact Or.inr (Or.inr hoccurs)
  · intro h node proto hserver hrequest hresponse
    rw [hclosed node proto hserver hrequest hresponse]
    constructor
    · rintro (heq | hoccurs)
      · exact Or.inl heq
      · exact h.imp id fun h => h.resolve_right (not_not.mpr hoccurs)
    · exact fun h => h.imp id Occurs.of_mem

/-- What an election announces: the last address of the group that occurs in the
visited list. -/
theorem electionResult_eq :
    Master.electionResult (splitStringUsing (joined group) ';')
        (joined visited ++ ';' :: own.text) =
      (group.reverse.find? fun a => contains (joined visited ++ ';' :: own.text) a.text).map
        SockAddr.text := by
  rw [Master.electionResult, split_joined, ← List.map_reverse, List.find?_map]
  rfl

theorem announcesVisited_iff :
    AnnouncesVisited group visited own ↔
      ∀ before a after, group = before ++ a :: after → Occurs a (visited ++ [own]) →
        a ∈ visited ++ [own] ∨ ∃ b ∈ after, b ∈ visited ++ [own] := by
  constructor
  · rintro h before a after rfl hoccurs
    -- the last address that occurs stands at `a` or behind it
    obtain ⟨last, hlast⟩ : ∃ last, (a :: after).reverse.find?
        (fun a => contains (joined visited ++ ';' :: own.text) a.text) = some last := by
      refine Option.isSome_iff_exists.mp (List.find?_isSome.mpr ⟨a, by simp, ?_⟩)
      exact contains_passed.mpr hoccurs
    have hresult : Master.electionResult (splitStringUsing (joined (before ++ a :: after)) ';')
        (joined visited ++ ';' :: own.text) = some last.text := by
      rw [electionResult_eq, List.reverse_append, List.find?_append, hlast]
      rfl
    obtain ⟨b, hb, htext⟩ := h
      { fdcsEnv :=
          { settings :=
              { trackerGroup := joined (before ++ a :: after), trackerServer := own.text } } }
      { requestSockAddr := own.text, responseSockAddr := joined visited } rfl rfl rfl
      (by simp [Master.closedCircle, Node.trackerServer]) last.text hresult
    obtain rfl : b = last := SockAddr.ext htext
    have hmem := List.mem_of_find?_eq_some hlast
    rw [List.mem_reverse, List.mem_cons] at hmem
    rcases hmem with rfl | hafter
    · exact Or.inl hb
    · exact Or.inr ⟨b, hafter, hb⟩
  · intro h node proto hgroup hserver hresponse _ announced hresult
    rw [hgroup, hserver, hresponse, electionResult_eq, Option.map_eq_some_iff] at hresult
    obtain ⟨last, hlast, rfl⟩ := hresult
    obtain ⟨hoccurs, after, before, hreverse, hnone⟩ := List.find?_eq_some_iff_append.mp hlast
    have hsplit : group = before.reverse ++ last :: after.reverse := by
      rw [← List.reverse_reverse group, hreverse]
      simp
    refine ⟨last, ?_, rfl⟩
    refine (h _ _ _ hsplit (contains_passed.mp hoccurs)).resolve_right ?_
    rintro ⟨b, hb, hvisited⟩
    have hmiss := hnone b (List.mem_reverse.mp hb)
    rw [contains_passed.mpr (Occurs.of_mem hvisited)] at hmiss
    cases hmiss

theorem acceptsMembers_iff :
    AcceptsMembers group address ↔ address ∈ group ∨ ¬Occurs address group := by
  constructor
  · intro h
    refine or_iff_not_imp_right.mpr fun hoccurs => ?_
    -- a master that takes every connection
    let around : Surroundings := { nowTime := 0, connect := fun _ _ => some 0, loopFuel := 0 }
    let s : Handling :=
      { node :=
          { fdcsEnv := { settings := { trackerGroup := joined group, trackerServer := [] } } } }
    have hconnect : Ensures (connectMaster around address.text) s _ fun _ => False :=
      ensures_connectMaster (Or.inl address.parts)
    obtain ⟨⟨ok, t⟩, hrun, _, hok, _⟩ := hconnect.returns
    have htrue : ok = true := hok.mpr ⟨contains_joined.mpr (not_not.mp hoccurs), Or.inr rfl⟩
    rw [htrue] at hrun
    exact h around s t rfl hrun
  · intro h around s t hgroup hrun
    have hconnect : Ensures (connectMaster around address.text) s _ fun _ => True :=
      ensures_connectMaster (Or.inr trivial)
    obtain ⟨_, hok, _⟩ := hconnect.of_run_eq_ok hrun
    have hcontains := (hok.mp rfl).1
    rw [hgroup, contains_joined] at hcontains
    exact h.resolve_right (not_not.mpr hcontains)

/-- The three tests are exact where no address that matters is a proper part of
another: the own one of a visited one, an address of the group of a visited one
(unless a visited one follows it in the group), and the address asked for of one
of the group. -/
theorem address_tests_exact_iff (group visited : List SockAddr)
    (own request address : SockAddr) :
    (ClosesExactly visited own request ↔
        own = request ∨ own ∈ visited ∨ ¬Occurs own visited) ∧
      (AnnouncesVisited group visited own ↔
        ∀ before a after, group = before ++ a :: after → Occurs a (visited ++ [own]) →
          a ∈ visited ++ [own] ∨ ∃ b ∈ after, b ∈ visited ++ [own]) ∧
      (AcceptsMembers group address ↔ address ∈ group ∨ ¬Occurs address group) :=
  ⟨closesExactly_iff, announcesVisited_iff, acceptsMembers_iff⟩

section Ports

def port3230 : SockAddr := ⟨"10.0.0.1:3230".toList, by decide, by decide⟩

def port32301 : SockAddr := ⟨"10.0.0.1:32301".toList, by decide, by decide⟩

def otherHost : SockAddr := ⟨"10.0.0.2:3230".toList, by decide, by decide⟩

/-- With ports 3230 and 32301 on one host a question of the second closes at the
first, an election of the second announces the first though it was not visited,
and the first is accepted where only the second is in the group. -/
theorem address_tests_not_exact :
    ¬ClosesExactly [port32301] port3230 port32301 ∧
      ¬AnnouncesVisited [otherHost, port32301, port3230] [port32301, otherHost] port32301 ∧
      ¬AcceptsMembers [otherHost, port32301] port3230 := by
  refine ⟨?_, ?_, ?_⟩
  · rw [closesExactly_iff]
    decide
  · rw [announcesVisited_iff]
    intro h
    have hlast := h [otherHost, port32301] port3230 [] rfl (by decide)
    exact absurd hlast (by decide)
  · rw [acceptsMembers_iff]
    decide

end Ports

end FastDCS.RingAddresses
