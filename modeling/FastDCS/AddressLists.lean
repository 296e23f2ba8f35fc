import FastDCS.SplitString
import FastDCS.Tracker

/-!
Lists of addresses on their way between the masters: `SendProtocol` and
`MasterGroupChanged` put them together one by one, `JoinStrings` in one go, and
`SplitStringUsing` takes them apart again.
-/

namespace FastDCS.AddressLists

open FastDCS.Strings
open FastDCS.DelimitedLists
open FastDCS.MachineIntegers
open FastDCS.Messages
open FastDCS.SplitString
open FastDCS.Tracker

/-- The loop of `JoinStrings`; the flag tells whether `iter` is still `begin`. -/
def joinLoop (delimiter : Str) : Bool → List Str → Str → Str
  | _, [], output => output
  | atBegin, piece :: rest, output =>
      joinLoop delimiter false rest ((if atBegin then output else output ++ delimiter) ++ piece)

def joinStrings (container : List Str) (delimiter : Str) : Str :=
  joinLoop delimiter true container []

theorem joinLoop_eq (delimiter output piece : Str) (rest : List Str) :
    joinLoop delimiter false rest (output ++ piece) =
      output ++ delimiter.intercalate (piece :: rest) := by
  induction rest generalizing output piece with
  | nil => simp [joinLoop]
  | cons next rest ih =>
      rw [joinLoop, if_neg (by decide), ih, List.intercalate_cons_cons]
      simp only [List.append_assoc]

theorem joinStrings_eq (container : List Str) (delimiter : Str) :
    joinStrings container delimiter = delimiter.intercalate container := by
  cases container with
  | nil => simp [joinStrings, joinLoop]
  | cons piece rest => exact joinLoop_eq delimiter [] piece rest

/-- The message after each of the masters has sent it on in turn. -/
def passedAlong (masters : List Node) (proto : TrackerProtocol) : TrackerProtocol :=
  masters.foldl (fun proto master => stamped master proto) proto

theorem response_passedAlong {masters : List Node} (hmasters : ∀ node ∈ masters, node.isMaster)
    (hne : ∀ node ∈ masters, node.trackerServer ≠ []) {passed : List Str}
    (hpassed : ∀ address ∈ passed, address ≠ []) {proto : TrackerProtocol}
    (hproto : proto.responseSockAddr = [';'].intercalate passed) :
    (passedAlong masters proto).responseSockAddr =
      [';'].intercalate (passed ++ masters.map Node.trackerServer) := by
  induction masters generalizing passed proto with
  | nil => simpa [passedAlong] using hproto
  | cons master rest ih =>
      have hserver := hne master List.mem_cons_self
      have hstamped : (stamped master proto).responseSockAddr =
          [';'].intercalate (passed ++ [master.trackerServer]) := by
        rw [← intercalate_append_piece hpassed, ← hproto]
        simp only [stamped, hmasters master List.mem_cons_self, if_true]
        cases proto.responseSockAddr with
        | nil => rfl
        | cons c rest => rfl
      have hrest := ih (fun node h => hmasters node (List.mem_cons_of_mem _ h))
        (fun node h => hne node (List.mem_cons_of_mem _ h))
        (fun address h => (List.mem_append.mp h).elim (hpassed address)
          fun hlast => List.mem_singleton.mp hlast ▸ hserver) hstamped
      simpa [passedAlong] using hrest

/-- The members of the group that `MasterGroupChanged` finds a socket for. -/
def onlineMembers (node : Node) : List Str :=
  (Strings.splitStringUsing node.trackerGroup ';').filter fun address =>
    (node.masterSockets.find? address).isSome

theorem onlineMaster_eq_intercalate (node : Node) :
    onlineMaster node = [';'].intercalate (onlineMembers node) := by
  have hdone : ∀ address ∈ ([] : List Str), address ≠ [] := by simp
  exact foldl_append_piece hdone fun _ h => ne_nil_of_mem_scan h

/-- What is expected of the three ways to build the text of a list. -/
structure SurvivesTrip (addresses : List Str) : Prop where
  passed : ∀ masters : List Node, (∀ node ∈ masters, node.isMaster) →
    masters.map Node.trackerServer = addresses →
    ∀ proto : TrackerProtocol, proto.responseSockAddr = [] → ∀ result,
      SplitString.splitStringUsing (passedAlong masters proto).responseSockAddr semicolon result =
        some (result ++ addresses)
  online : ∀ node, onlineMembers node = addresses → ∀ result,
    SplitString.splitStringUsing (onlineMaster node) semicolon result = some (result ++ addresses)
  joined : ∀ result,
    SplitString.splitStringUsing (joinStrings addresses [';']) semicolon result =
      some (result ++ addresses)

theorem splitStringUsing_addresses {addresses : List Str} (hfree : ∀ a ∈ addresses, ';' ∉ a)
    (hne : ∀ a ∈ addresses, a ≠ []) (result : List Str) :
    SplitString.splitStringUsing ([';'].intercalate addresses) semicolon result =
        some (result ++ addresses) ↔ addresses.length < 2 ^ 31 := by
  rw [splitStringUsing_eq (c := ';') rfl, scan_intercalate hfree hne, Option.map_eq_some_iff,
    ← checked_natCast_eq_some_iff]
  constructor
  · rintro ⟨count, hcount, _⟩
    rw [hcount, ← (checked_eq_some_iff.mp hcount).2]
  · intro hcount
    exact ⟨_, hcount, rfl⟩

/-- Apart from the `int` that counts them, nothing limits the addresses. -/
theorem survivesTrip_iff {addresses : List Str} (hfree : ∀ a ∈ addresses, ';' ∉ a)
    (hne : ∀ a ∈ addresses, a ≠ []) :
    SurvivesTrip addresses ↔ addresses.length < 2 ^ 31 := by
  have hsplit := splitStringUsing_addresses hfree hne
  constructor
  · intro h
    rw [← hsplit [], ← joinStrings_eq]
    exact h.joined []
  · intro hcount
    refine ⟨fun masters hmasters haddresses proto hproto result => ?_, fun node hnode result => ?_,
      fun result => ?_⟩
    · have hservers : ∀ node ∈ masters, node.trackerServer ≠ [] := fun node hnode =>
        hne _ (haddresses ▸ List.mem_map_of_mem hnode)
      have hpassed : ∀ address ∈ ([] : List Str), address ≠ [] := by simp
      rw [response_passedAlong hmasters hservers hpassed (by simpa using hproto),
        List.nil_append, haddresses, hsplit]
      exact hcount
    · rw [onlineMaster_eq_intercalate, hnode, hsplit]
      exact hcount
    · rw [joinStrings_eq, hsplit]
      exact hcount

theorem group_survivesTrip : SurvivesTrip ["10.0.0.1:3230".toList, "10.0.0.2:3230".toList] :=
  (survivesTrip_iff (by decide) (by decide)).mpr (by decide)

theorem not_every_list_survivesTrip :
    ¬∀ addresses : List Str, (∀ a ∈ addresses, ';' ∉ a) → (∀ a ∈ addresses, a ≠ []) →
      SurvivesTrip addresses := by
  intro h
  have hfree : ∀ a ∈ List.replicate (2 ^ 31) ['a'], ';' ∉ a := fun a ha => by
    rw [List.eq_of_mem_replicate ha]
    decide
  have hne : ∀ a ∈ List.replicate (2 ^ 31) ['a'], a ≠ [] := fun a ha => by
    rw [List.eq_of_mem_replicate ha]
    decide
  have hjoined := (h _ hfree hne).joined []
  rw [joinStrings_eq, splitStringUsing_addresses hfree hne, List.length_replicate] at hjoined
  exact absurd hjoined (lt_irrefl _)

end FastDCS.AddressLists
