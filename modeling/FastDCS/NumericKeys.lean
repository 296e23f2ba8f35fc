import FastDCS.MachineIntegers
import FastDCS.Strings

/-!
The human-readable keys of `string_codec.cc` for all four integer types. Every
encoder goes through `NumericValueToKey<int32>`, every decoder through
`KeyToNumericValue` of its own type.
-/

namespace FastDCS.NumericKeys

open FastDCS.Strings
open FastDCS.MachineIntegers

inductive ValueType where
  | int32
  | uint32
  | int64
  | uint64
deriving DecidableEq

namespace ValueType

def bits : ValueType → Nat
  | int32 => 32
  | uint32 => 32
  | int64 => 64
  | uint64 => 64

def isSigned : ValueType → Bool
  | int32 => true
  | uint32 => false
  | int64 => true
  | uint64 => false

def min (t : ValueType) : Int := if t.isSigned then -2 ^ (t.bits - 1) else 0

def max (t : ValueType) : Int := if t.isSigned then 2 ^ (t.bits - 1) - 1 else 2 ^ t.bits - 1

end ValueType

/-- `istringstream >> v` at the first character that is no blank. A number out of
range gives the nearest bound, except that an unsigned type takes a minus sign
for the negation of its own arithmetic. -/
def extract (t : ValueType) (text : Str) : Int :=
  let negative := text.head? = some '-'
  let signed := text.head? = some '+' ∨ negative
  let number := decimalValue ((if signed then text.tail else text).takeWhile Char.isDigit)
  if negative then
    if t.isSigned then Max.max t.min (-number)
    else if number ≤ t.max then (-number) % 2 ^ t.bits else t.max
  else Min.min t.max number

def keyToNumericValue (t : ValueType) (uninitialised : Int) (key : Str) : Int :=
  match key.dropWhile Char.isWhitespace with
  | [] => uninitialised
  | text => extract t text

/-- The argument of an encoder where it is passed on as an `int32`. -/
def toInt32 (value : Int) : Int := narrow 31 value

def uint32ToKey (value : Int) : Option Str := int32ToKey (toInt32 value)

def int64ToKey (value : Int) : Option Str := int32ToKey (toInt32 value)

def uint64ToKey (value : Int) : Option Str := int32ToKey (toInt32 value)

def keyToUint32 (uninitialised : Int) (key : Str) : Int :=
  keyToNumericValue .uint32 uninitialised key

def keyToInt64 (uninitialised : Int) (key : Str) : Int :=
  keyToNumericValue .int64 uninitialised key

def keyToUint64 (uninitialised : Int) (key : Str) : Int :=
  keyToNumericValue .uint64 uninitialised key

namespace ValueType

def toKey : ValueType → Int → Option Str
  | int32 => int32ToKey
  | uint32 => uint32ToKey
  | int64 => int64ToKey
  | uint64 => uint64ToKey

def ofKey : ValueType → Int → Str → Int
  | int32 => keyToInt32
  | uint32 => keyToUint32
  | int64 => keyToInt64
  | uint64 => keyToUint64

end ValueType

/-- The value is encoded, and its key is decoded to it. -/
def RoundTrips (t : ValueType) (value : Int) : Prop :=
  ∃ key, t.toKey value = some key ∧ ∀ uninitialised, t.ofKey uninitialised key = value

variable {t : ValueType} {value : Int}

theorem keyToNumericValue_int32 (uninitialised : Int) (key : Str) :
    keyToNumericValue .int32 uninitialised key = keyToInt32 uninitialised key := by
  have hnonneg : ∀ digits : Str, 0 ≤ decimalValue digits := by
    intro digits
    rw [decimalValue_eq]
    exact Int.natCast_nonneg _
  rw [keyToNumericValue, keyToInt32]
  cases key.dropWhile Char.isWhitespace with
  | nil => rfl
  | cons c rest =>
      have hdigits := hnonneg
        ((if (c :: rest).head? = some '+' ∨ (c :: rest).head? = some '-' then (c :: rest).tail
          else c :: rest).takeWhile Char.isDigit)
      simp only [extract, extractInt32, ValueType.isSigned, ValueType.min, ValueType.max,
        ValueType.bits, if_true]
      split_ifs at hdigits ⊢ with hsign hneg <;> omega

theorem ofKey_eq (t : ValueType) (uninitialised : Int) (key : Str) :
    t.ofKey uninitialised key = keyToNumericValue t uninitialised key := by
  cases t with
  | int32 => exact (keyToNumericValue_int32 uninitialised key).symm
  | uint32 => rfl
  | int64 => rfl
  | uint64 => rfl

theorem toKey_eq (hle : value ≤ t.max) (hnonneg : 0 ≤ value) :
    t.toKey value = int32ToKey (toInt32 value) := by
  cases t with
  | int32 =>
      have hfits : Fits 31 value := by
        change value ≤ 2 ^ 31 - 1 at hle
        rw [Fits]
        omega
      rw [toInt32, narrow_eq_self_iff.mpr hfits]
      rfl
  | uint32 => rfl
  | int64 => rfl
  | uint64 => rfl

/-- Digits are read as their number where it is in the range of the type. -/
theorem keyToNumericValue_of_digits {digits : Str} (hne : digits ≠ [])
    (hdigits : ∀ c ∈ digits, c.isDigit = true) (uninitialised : Int) :
    keyToNumericValue t uninitialised digits =
      Min.min t.max (Nat.ofDigitChars 10 digits 0 : Int) := by
  obtain ⟨hblank, hplus, hminus, hall⟩ := extract_digits hne hdigits
  obtain ⟨c, rest, rfl⟩ := List.exists_cons_of_ne_nil hne
  rw [keyToNumericValue, hblank]
  simp only [extract, hplus, hminus, or_self, if_false, hall, decimalValue_eq]

/-- What the encoder of `int32` writes, the decoder of any type reads. -/
theorem ofKey_int32ToKey {key : Str} (hkey : int32ToKey value = some key) (hle : value ≤ t.max)
    (uninitialised : Int) : t.ofKey uninitialised key = value := by
  obtain ⟨hne, hdigits, hvalue⟩ := digits_int32ToKey hkey
  rw [ofKey_eq, keyToNumericValue_of_digits hne hdigits]
  omega

theorem lt_two_pow_of_toInt32 (h : toInt32 value = value) : value < 2 ^ 31 :=
  (narrow_eq_self_iff.mp h).2

/-- A value goes round exactly where 31 bits hold it. -/
theorem roundTrips_iff (t : ValueType) (value : Int) (hnonneg : 0 ≤ value)
    (hle : value ≤ t.max) : RoundTrips t value ↔ value < 2 ^ 31 := by
  rw [RoundTrips, toKey_eq hle hnonneg]
  constructor
  · rintro ⟨key, hkey, hread⟩
    have hsmall : toInt32 value ≤ t.max := by
      have hlt : toInt32 value < 2 ^ 31 := (fits_narrow 31 value).2
      have hmax : 2 ^ 31 - 1 ≤ t.max := by cases t <;> decide
      omega
    apply lt_two_pow_of_toInt32
    rw [← ofKey_int32ToKey hkey hsmall 0]
    exact hread 0
  · intro hlt
    have hsame : toInt32 value = value := narrow_eq_self_iff.mpr ⟨by omega, hlt⟩
    rw [hsame]
    cases hkey : int32ToKey value with
    | none =>
        rw [int32ToKey, if_neg (not_lt.mpr hnonneg)] at hkey
        cases hkey
    | some key => exact ⟨key, rfl, ofKey_int32ToKey hkey hle⟩

theorem max_int32_roundTrips : RoundTrips .uint64 2147483647 :=
  (roundTrips_iff .uint64 2147483647 (by decide) (by decide)).mpr (by decide)

/-- The key of 2^32 is that of 0, and 2^31 fails the `CHECK`. -/
theorem not_every_value_roundTrips :
    (int64ToKey 4294967296 = int64ToKey 0 ∧ keyToInt64 0 "0000000000".toList = 0) ∧
      uint32ToKey 2147483648 = none ∧
        ¬∀ (t : ValueType) (value : Int), 0 ≤ value → value ≤ t.max → RoundTrips t value := by
  refine ⟨by decide, by decide, ?_⟩
  intro hall
  obtain ⟨key, hkey, _⟩ := hall .uint32 2147483648 (by decide) (by decide)
  rw [show ValueType.toKey .uint32 2147483648 = none by decide] at hkey
  cases hkey

end FastDCS.NumericKeys
