import Mathlib.Algebra.Order.Group.Int
import Mathlib.Logic.Function.Basic
import Mathlib.Tactic.SplitIfs
import FastDCS.Runs

/-!
A table of items under leases and the log of what is handed out, completed and
added: two handouts of an item that was not completed and added again in between
are further apart than a lease lasts.
-/

namespace FastDCS.LeaseLogs

open FastDCS.Runs

universe u

/-- An item is handed out when its lease is seen to have ended, at `checked`,
under a new lease that counts from `leased`. -/
inductive Event (κ : Type u) where
  | handedOut (item : κ) (checked leased : Int)
  | completed (item : κ)
  | added (item : κ) (ends : Int)
deriving DecidableEq

/-- When the lease of each item in the table ends, and the latest time seen. -/
structure Table (κ : Type u) where
  ends : κ → Option Int
  clock : Int

variable {κ : Type u} [DecidableEq κ]

def step (timeout : Int) (t : Table κ) : Event κ → Option (Table κ)
  | .handedOut item checked leased =>
      if (∃ ends ∈ t.ends item, ends < checked) ∧ t.clock ≤ leased then
        some ⟨Function.update t.ends item (some (leased + timeout)), leased⟩
      else none
  | .completed item =>
      if (t.ends item).isSome then some { t with ends := Function.update t.ends item none }
      else none
  | .added item ends =>
      if t.ends item = none then
        some { t with ends := Function.update t.ends item (some ends) }
      else none

variable {timeout : Int} {t t' : Table κ} {item : κ}

end FastDCS.LeaseLogs
