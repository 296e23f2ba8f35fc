import FastDCS.Agreement

/-!
Activation of an elected primary: which masters run `UpgradeTracker` once the
announcement of the winner has gone round.
-/

namespace FastDCS.Activation

open FastDCS.Messages
open FastDCS.Runs
open FastDCS.Cluster
open FastDCS.Election
open FastDCS.Agreement

variable {pb : Protobuf} {net : Network} {s s' : State} {a : Action}

/-- What the history says: announcements name the last live master, and one
that comes back to that master activates it. In a group of several nothing else
does. -/
structure Recorded (net : Network) (s : State) : Prop where
  named : ∀ p ∈ s.returned, p.1 ∈ net.liveMasters ∧ p.2 = net.lastLive
  activated : ∀ master, (master, master) ∈ s.returned → master ∈ s.activated
  returned : 2 ≤ net.liveMasters.length → ∀ master ∈ s.activated, (master, master) ∈ s.returned

end FastDCS.Activation
