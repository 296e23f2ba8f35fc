import Mathlib.Algebra.Order.Ring.Int
import Mathlib.Tactic.Ring
import Mathlib.Tactic.SplitIfs

/-!
Fixed-width integers as integers with a range: conversion to a signed type keeps
the value modulo a power of two, and signed arithmetic has no result where it
leaves the range.
-/

namespace FastDCS.MachineIntegers

/-- The range of a signed type of `w + 1` bits. -/
def Fits (w : Nat) (v : Int) : Prop := -2 ^ w ≤ v ∧ v < 2 ^ w

instance (w : Nat) (v : Int) : Decidable (Fits w v) := inferInstanceAs (Decidable (_ ∧ _))

/-- The value after conversion to a signed type of `w + 1` bits. -/
def narrow (w : Nat) (v : Int) : Int := v.bmod (2 ^ (w + 1))

/-- The result of a signed operation, or `none` where it overflows. -/
def checked (w : Nat) (v : Int) : Option Int := if Fits w v then some v else none

variable {w : Nat} {v : Int}

theorem fits_narrow (w : Nat) (v : Int) : Fits w (narrow w v) := by
  have hpos : 0 < 2 ^ (w + 1) := Nat.two_pow_pos _
  have hhalf : ((2 ^ (w + 1) : Nat) : Int) = 2 * 2 ^ w := by
    push_cast
    ring
  have hle := Int.le_bmod (x := v) hpos
  have hlt := Int.bmod_lt (x := v) hpos
  rw [hhalf] at hle hlt
  constructor
  · rw [narrow]
    omega
  · rw [narrow]
    omega

theorem narrow_eq_self_iff : narrow w v = v ↔ Fits w v := by
  constructor
  · intro h
    rw [← h]
    exact fits_narrow w v
  · rintro ⟨hle, hlt⟩
    have hhalf : ((2 ^ (w + 1) : Nat) : Int) = 2 * 2 ^ w := by
      push_cast
      ring
    apply Int.bmod_eq_of_le_mul_two
    · rw [hhalf]
      omega
    · rw [hhalf]
      omega

theorem checked_eq_some_iff {u : Int} : checked w v = some u ↔ Fits w v ∧ v = u := by
  rw [checked]
  split_ifs with h
  · simp [h]
  · simp [h]

end FastDCS.MachineIntegers
