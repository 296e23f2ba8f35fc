import Mathlib.Algebra.Group.Int.Defs
import Mathlib.Data.List.TakeWhile
import FastDCS.DelimitedLists

/-!
The string utilities the nodes share: `find`, `SplitStringUsing` and the decimal
keys of `string_codec`.
-/

namespace FastDCS.Strings

open FastDCS.DelimitedLists

/-- A byte string; a character stands for a byte. -/
abbrev Str := List Char

instance : LawfulBEq Str := inferInstance

def contains (s w : Str) : Bool := decide (w <:+: s)

/-- `SplitStringUsing` with a delimiter set of one character: the scan keeps the
start of the piece it is in and never produces an empty piece. -/
def splitStringUsing (full : Str) (delim : Char) : List Str := scan delim full none

theorem splitStringUsing_intercalate {delim : Char} {pieces : List Str}
    (hd : ∀ x ∈ pieces, delim ∉ x) (hne : ∀ x ∈ pieces, x ≠ []) :
    splitStringUsing ([delim].intercalate pieces) delim = pieces :=
  scan_intercalate hd hne

def kNumericValueFillSize : Nat := 10

/-- `Int32ToKey`: the decimal digits filled up with zeros on the left, or `none`
where `CHECK_GE(value, 0)` fails. -/
def int32ToKey (value : Int) : Option Str :=
  if value < 0 then none
  else
    let digits := Nat.toDigits 10 value.toNat
    some (List.replicate (kNumericValueFillSize - digits.length) '0' ++ digits)

def decimalValue (digits : Str) : Int :=
  digits.foldl (fun n c => 10 * n + (c.toNat - '0'.toNat : Nat)) 0

/-- `istringstream >> int32` at the first character that is no blank. The stream
stores 0 when no digit follows the sign, and the nearest bound of the type when
the number is out of range. -/
def extractInt32 (text : Str) : Int :=
  let signed := text.head? = some '+' ∨ text.head? = some '-'
  let digits := (if signed then text.tail else text).takeWhile Char.isDigit
  let value := if text.head? = some '-' then -decimalValue digits else decimalValue digits
  max (-2147483648) (min 2147483647 value)

/-- `KeyToInt32`. With nothing but blanks in the key the extraction never starts
and the local it should fill keeps its indeterminate value. -/
def keyToInt32 (uninitialised : Int) (key : Str) : Int :=
  match key.dropWhile Char.isWhitespace with
  | [] => uninitialised
  | text => extractInt32 text

theorem decimalValue_eq (digits : Str) : decimalValue digits = Nat.ofDigitChars 10 digits 0 := by
  have hloop : ∀ n : Nat,
      digits.foldl (fun (n : Int) c => 10 * n + ((c.toNat - '0'.toNat : Nat) : Int)) n =
        Nat.ofDigitChars 10 digits n := by
    induction digits with
    | nil => exact fun _ => rfl
    | cons c rest ih =>
        intro n
        rw [List.foldl_cons, Nat.ofDigitChars_cons, ← ih]
        push_cast
        rfl
  exact hloop 0

theorem not_isWhitespace_of_isDigit {c : Char} (hc : c.isDigit = true) :
    ¬c.isWhitespace = true := by
  intro hblank
  simp only [Char.isWhitespace, Bool.or_eq_true, decide_eq_true_eq] at hblank
  rcases hblank with ((rfl | rfl) | rfl) | rfl <;> exact absurd hc (by decide)

/-- Nothing in front of digits is skipped, and nothing behind them is left. -/
theorem extract_digits {digits : Str} (hne : digits ≠ [])
    (hdigits : ∀ c ∈ digits, c.isDigit = true) :
    digits.dropWhile Char.isWhitespace = digits ∧ digits.head? ≠ some '+' ∧
      digits.head? ≠ some '-' ∧ digits.takeWhile Char.isDigit = digits := by
  obtain ⟨c, rest, rfl⟩ := List.exists_cons_of_ne_nil hne
  have hc : c.isDigit = true := hdigits c List.mem_cons_self
  refine ⟨List.dropWhile_cons_of_neg (not_isWhitespace_of_isDigit hc), fun hplus => ?_,
    fun hminus => ?_, List.takeWhile_eq_self_iff.mpr hdigits⟩
  · obtain rfl := Option.some.inj hplus
    exact absurd hc (by decide)
  · obtain rfl := Option.some.inj hminus
    exact absurd hc (by decide)

theorem keyToInt32_of_digits {digits : Str} (hne : digits ≠ [])
    (hdigits : ∀ c ∈ digits, c.isDigit = true) (uninitialised : Int) :
    keyToInt32 uninitialised digits =
      max (-2147483648) (min 2147483647 (Nat.ofDigitChars 10 digits 0 : Int)) := by
  obtain ⟨hblank, hplus, hminus, hall⟩ := extract_digits hne hdigits
  obtain ⟨c, rest, rfl⟩ := List.exists_cons_of_ne_nil hne
  rw [keyToInt32, hblank]
  simp only [extractInt32, hplus, hminus, or_self, if_false, hall, decimalValue_eq]

/-- A key is the digits of its value. -/
theorem digits_int32ToKey {value : Int} {key : Str} (hkey : int32ToKey value = some key) :
    key ≠ [] ∧ (∀ c ∈ key, c.isDigit = true) ∧ (Nat.ofDigitChars 10 key 0 : Int) = value := by
  rw [int32ToKey] at hkey
  split_ifs at hkey with hneg
  obtain rfl := Option.some.inj hkey
  refine ⟨List.append_ne_nil_of_right_ne_nil _ Nat.toDigits_ne_nil, fun c hc => ?_, ?_⟩
  · rcases List.mem_append.mp hc with hzero | hdigit
    · rw [List.eq_of_mem_replicate hzero]
      rfl
    · exact Nat.isDigit_of_mem_toDigits (by decide) (by decide) hdigit
  · rw [Nat.ofDigitChars_append, Nat.ofDigitChars_replicate_zero, Nat.mul_zero,
      Nat.ofDigitChars_ten_toDigits]
    omega

/-- What is written as a key is read back, by a reader whose numbers have 32
bits. -/
theorem keyToInt32_int32ToKey {value : Int} {key : Str} (hkey : int32ToKey value = some key)
    (hlt : value < 2 ^ 31) (uninitialised : Int) : keyToInt32 uninitialised key = value := by
  obtain ⟨hne, hdigits, hvalue⟩ := digits_int32ToKey hkey
  rw [keyToInt32_of_digits hne hdigits]
  omega

example : keyToInt32 7 "0000000012".toList = 12 := by decide

end FastDCS.Strings
