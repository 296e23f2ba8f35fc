import FastDCS.ConfigFile
import FastDCS.MachineIntegers

/-!
`ParseBytes` of `string_util.cc` and the byte sizes that `LoadConfig` takes from
the configuration.
-/

namespace FastDCS.ByteSizes

open FastDCS.Strings
open FastDCS.ConfigFile
open FastDCS.MachineIntegers

/-- Why a size is not stored: `CHECK_GT` fails, or an `int64` overflows. -/
inductive Fault where
  | checkFailed
  | overflow
deriving DecidableEq

/-- `strtol(text, &end, 10)`: the number, or the nearest `long`, and the text from
`end` on. -/
def strtol (text : Str) : Int × Str :=
  let shown := text.dropWhile isSpace
  let signed := shown.head? = some '+' ∨ shown.head? = some '-'
  let number := if signed then shown.tail else shown
  let digits := number.takeWhile Char.isDigit
  let value := if shown.head? = some '-' then -decimalValue digits else decimalValue digits
  if digits = [] then (0, text)
  else (max (-2 ^ 63) (min (2 ^ 63 - 1) value), number.dropWhile Char.isDigit)

/-- `*bytes *= factor`. -/
def scale (bytes factor : Int) : Except Fault Int :=
  match checked 63 (bytes * factor) with
  | some bytes => .ok bytes
  | none => .error .overflow

/-- What `ParseBytes` stores in `*bytes`. -/
def parseBytes (strBytes : Str) (defaultValue : Int) : Except Fault Int :=
  let bytes := (strtol strBytes).1
  if 0 < bytes then
    match (strtol strBytes).2.head? with
    | none => scale bytes defaultValue
    | some c =>
        if c = 'G' ∨ c = 'g' then scale bytes (1024 * 1024 * 1024)
        else if c = 'M' ∨ c = 'm' then scale bytes (1024 * 1024)
        else if c = 'K' ∨ c = 'k' then scale bytes 1024
        else .ok bytes
  else .error .checkFailed

/-- The sizes among the settings, with their default values. -/
structure Settings where
  logMaxSize : Int := 10 * 1024 * 1024
  socketBuffSize : Int := 64 * 1024
deriving DecidableEq

section LoadConfig

-- what `config_get` finds for each key
variable (config : Str → Option Str)

def loadLogMaxSize (settings : Settings) : Except Fault Settings :=
  match config "log_max_size".toList with
  | some text => (parseBytes text (narrow 31 settings.logMaxSize)).map fun bytes =>
      { settings with logMaxSize := bytes }
  | none => .ok settings

/-- A size out of range gives way to 64 KB. -/
def clampSocketBuffSize (settings : Settings) : Settings :=
  if settings.socketBuffSize < 8 * 1024 ∨ settings.socketBuffSize > 512 * 1024 then
    { settings with socketBuffSize := 64 * 1024 }
  else settings

def loadSocketBuffSize (settings : Settings) : Except Fault Settings :=
  match config "socket_buff_size".toList with
  | some text => (parseBytes text (narrow 31 settings.socketBuffSize)).map fun bytes =>
      clampSocketBuffSize { settings with socketBuffSize := bytes }
  | none => .ok (clampSocketBuffSize settings)

/-- The part of `LoadConfig` that sets the sizes. -/
def loadConfig (settings : Settings) : Except Fault Settings :=
  (loadLogMaxSize config settings).bind (loadSocketBuffSize config)

end LoadConfig

/-- The bytes that one unit of a suffix stands for. -/
def unitBytes : Str → Option Int
  | [] => some 1
  | c :: _ =>
      if c = 'K' ∨ c = 'k' then some 1024
      else if c = 'M' ∨ c = 'm' then some (1024 * 1024)
      else if c = 'G' ∨ c = 'g' then some (1024 * 1024 * 1024)
      else none

theorem not_isSpace_of_isDigit {c : Char} (hc : c.isDigit = true) : ¬isSpace c = true := by
  simp only [Char.isDigit, Bool.and_eq_true, decide_eq_true_eq, ge_iff_le,
    UInt32.le_iff_toNat_le] at hc
  rw [isSpace, Bool.or_eq_true, Bool.and_eq_true]
  simp only [decide_eq_true_eq]
  rintro (rfl | ⟨_, hle⟩)
  · exact absurd hc.1 (by decide)
  · have hge : 48 ≤ c.toNat := hc.1
    omega

theorem scale_eq_ok_iff {bytes factor stored : Int} :
    scale bytes factor = .ok stored ↔ Fits 63 (bytes * factor) ∧ bytes * factor = stored := by
  rw [← checked_eq_some_iff, scale]
  cases hchecked : checked 63 (bytes * factor) with
  | none => simp
  | some v => simp

/-- A configured size: a positive decimal number and a suffix that names a unit. -/
structure SizeText where
  digits : Str
  suffix : Str
  unit : Int
  nonempty : digits ≠ []
  decimal : ∀ c ∈ digits, c.isDigit = true
  positive : 1 ≤ decimalValue digits
  known : unitBytes suffix = some unit

namespace SizeText

variable (size : SizeText)

def text : Str := size.digits ++ size.suffix

def value : Int := decimalValue size.digits * size.unit

/-- The suffix is empty or begins with the letter of its unit. -/
theorem suffix_cases :
    size.suffix = [] ∧ size.unit = 1 ∨
      ∃ c rest, size.suffix = c :: rest ∧
        ((c = 'K' ∨ c = 'k') ∧ size.unit = 1024 ∨
          (c = 'M' ∨ c = 'm') ∧ size.unit = 1024 * 1024 ∨
          (c = 'G' ∨ c = 'g') ∧ size.unit = 1024 * 1024 * 1024) := by
  have hknown := size.known
  cases hsuffix : size.suffix with
  | nil =>
      rw [hsuffix] at hknown
      exact Or.inl ⟨rfl, (Option.some.inj hknown).symm⟩
  | cons c rest =>
      refine Or.inr ⟨c, rest, rfl, ?_⟩
      rw [hsuffix, unitBytes] at hknown
      split_ifs at hknown with hk hm hg
      · exact Or.inl ⟨hk, (Option.some.inj hknown).symm⟩
      · exact Or.inr (Or.inl ⟨hm, (Option.some.inj hknown).symm⟩)
      · exact Or.inr (Or.inr ⟨hg, (Option.some.inj hknown).symm⟩)

theorem unit_pos : 1 ≤ size.unit := by
  obtain ⟨_, hunit⟩ | ⟨c, rest, _, ⟨_, hunit⟩ | ⟨_, hunit⟩ | ⟨_, hunit⟩⟩ := size.suffix_cases
  all_goals omega

theorem decimalValue_le_value : decimalValue size.digits ≤ size.value := by
  have hpositive := size.positive
  exact le_mul_of_one_le_right (by omega) size.unit_pos

theorem takeWhile_text : size.text.takeWhile Char.isDigit = size.digits ∧
    size.text.dropWhile Char.isDigit = size.suffix := by
  have hsuffix : size.suffix.takeWhile Char.isDigit = [] ∧
      size.suffix.dropWhile Char.isDigit = size.suffix := by
    obtain ⟨hnil, _⟩ | ⟨c, rest, hcons, hletter⟩ := size.suffix_cases
    · rw [hnil]
      exact ⟨rfl, rfl⟩
    · have hc : c.isDigit = false := by
        obtain ⟨rfl | rfl, _⟩ | ⟨rfl | rfl, _⟩ | ⟨rfl | rfl, _⟩ := hletter <;> rfl
      rw [hcons]
      simp [hc]
  rw [text, List.takeWhile_append_of_pos size.decimal, List.dropWhile_append_of_pos size.decimal,
    hsuffix.1, hsuffix.2]
  exact ⟨List.append_nil _, rfl⟩

theorem strtol_text (hfits : size.value < 2 ^ 63) :
    strtol size.text = (decimalValue size.digits, size.suffix) := by
  obtain ⟨c, rest, hdigits⟩ := List.exists_cons_of_ne_nil size.nonempty
  have hc : c.isDigit = true := size.decimal c (hdigits ▸ List.mem_cons_self)
  have htext : size.text = c :: (rest ++ size.suffix) := by
    rw [text, hdigits, List.cons_append]
  have hspace : size.text.dropWhile isSpace = size.text := by
    rw [htext]
    exact List.dropWhile_cons_of_neg (not_isSpace_of_isDigit hc)
  have hplus : size.text.head? ≠ some '+' := by
    rw [htext]
    rintro hplus
    obtain rfl := Option.some.inj hplus
    exact absurd hc (by decide)
  have hminus : size.text.head? ≠ some '-' := by
    rw [htext]
    rintro hminus
    obtain rfl := Option.some.inj hminus
    exact absurd hc (by decide)
  have hle := size.decimalValue_le_value
  have hpositive := size.positive
  simp only [strtol, hspace, hplus, hminus, or_self, if_false, size.takeWhile_text.1,
    size.takeWhile_text.2, size.nonempty]
  rw [min_eq_right (by omega), max_eq_right (by omega)]

/-- The number is scaled by the unit, or by the default where there is no suffix. -/
theorem parseBytes_text (hfits : size.value < 2 ^ 63) (defaultValue : Int) :
    parseBytes size.text defaultValue =
      scale (decimalValue size.digits) (if size.suffix = [] then defaultValue else size.unit) := by
  have hpositive := size.positive
  rw [parseBytes, size.strtol_text hfits]
  simp only
  rw [if_pos (by omega)]
  obtain ⟨hnil, _⟩ | ⟨c, rest, hcons, hletter⟩ := size.suffix_cases
  · rw [hnil]
    rfl
  · rw [hcons, if_neg (List.cons_ne_nil _ _)]
    obtain ⟨rfl | rfl, hunit⟩ | ⟨rfl | rfl, hunit⟩ | ⟨rfl | rfl, hunit⟩ := hletter <;>
      rw [hunit] <;> rfl

/-- A size with a unit is stored as it is; without one it is multiplied by the
default. -/
theorem parseBytes_eq_ok_iff (hfits : size.value < 2 ^ 63) (defaultValue : Int) :
    parseBytes size.text defaultValue = .ok size.value ↔
      size.suffix ≠ [] ∨ defaultValue = 1 := by
  have hpositive := size.positive
  have hle := size.decimalValue_le_value
  rw [size.parseBytes_text hfits, scale_eq_ok_iff]
  obtain ⟨hnil, hunit⟩ | ⟨c, rest, hcons, _⟩ := size.suffix_cases
  · rw [if_pos hnil, value, hunit, Int.mul_one]
    constructor
    · rintro ⟨_, hstored⟩
      exact Or.inr (Int.eq_one_of_mul_eq_self_right (by omega) hstored)
    · rintro (hne | rfl)
      · exact absurd hnil hne
      · rw [Int.mul_one]
        rw [value, hunit, Int.mul_one] at hfits
        exact ⟨⟨by omega, hfits⟩, rfl⟩
  · have hne : size.suffix ≠ [] := by simp [hcons]
    rw [if_neg hne]
    exact ⟨fun _ => Or.inl hne, fun _ => ⟨⟨by rw [← value]; omega, hfits⟩, rfl⟩⟩

end SizeText

/-- What is expected of `ParseBytes`: it stores the value, whatever is stored
before. -/
def Parsed (size : SizeText) (stored : Int) : Prop :=
  size.value < 2 ^ 63 → parseBytes size.text (narrow 31 stored) = .ok size.value

/-- What is expected of `LoadConfig` for a size in range, where it accepts the
size of the log. -/
def Loaded (size : SizeText) (stored : Int) : Prop :=
  8192 ≤ size.value → size.value ≤ 524288 →
    ∀ (config : Str → Option Str) (settings logged : Settings),
      settings.socketBuffSize = stored → config "socket_buff_size".toList = some size.text →
      loadLogMaxSize config settings = .ok logged →
      (loadConfig config settings).map Settings.socketBuffSize = .ok size.value

theorem map_eq_ok_iff {α β : Type} {f : α → β} {result : Except Fault α} {b : β} :
    result.map f = .ok b ↔ ∃ a, result = .ok a ∧ f a = b := by
  cases result with
  | error fault => simp [Except.map]
  | ok a => simp [Except.map]

theorem socketBuffSize_loadLogMaxSize {config : Str → Option Str} {settings logged : Settings}
    (h : loadLogMaxSize config settings = .ok logged) :
    logged.socketBuffSize = settings.socketBuffSize := by
  rw [loadLogMaxSize] at h
  split at h
  · obtain ⟨bytes, _, rfl⟩ := map_eq_ok_iff.mp h
    rfl
  · rw [Except.ok.inj h]

/-- What `LoadConfig` leaves is what `ParseBytes` stores, if that is in range. -/
theorem socketBuffSize_loadConfig {config : Str → Option Str} {settings logged : Settings}
    {text : Str} (hlog : loadLogMaxSize config settings = .ok logged)
    (htext : config "socket_buff_size".toList = some text) (left : Int) :
    (loadConfig config settings).map Settings.socketBuffSize = .ok left ↔
      ∃ bytes, parseBytes text (narrow 31 settings.socketBuffSize) = .ok bytes ∧
        (if bytes < 8 * 1024 ∨ bytes > 512 * 1024 then 64 * 1024 else bytes) = left := by
  have hload : loadConfig config settings = loadSocketBuffSize config logged := by
    rw [loadConfig, hlog]
    rfl
  rw [hload, loadSocketBuffSize, htext, map_eq_ok_iff, socketBuffSize_loadLogMaxSize hlog]
  simp only [map_eq_ok_iff]
  have hclamp : ∀ bytes, (clampSocketBuffSize { logged with socketBuffSize := bytes }).socketBuffSize =
      if bytes < 8 * 1024 ∨ bytes > 512 * 1024 then 64 * 1024 else bytes := by
    intro bytes
    rw [clampSocketBuffSize]
    exact apply_ite Settings.socketBuffSize _ _ _
  constructor
  · rintro ⟨_, ⟨bytes, hbytes, rfl⟩, hleft⟩
    exact ⟨bytes, hbytes, (hclamp bytes).symm.trans hleft⟩
  · rintro ⟨bytes, hbytes, hleft⟩
    exact ⟨_, ⟨bytes, hbytes, rfl⟩, (hclamp bytes).trans hleft⟩

theorem loaded_iff (size : SizeText) (stored : Int) :
    Loaded size stored ↔
      (8192 ≤ size.value → size.value ≤ 524288 →
        size.suffix ≠ [] ∨ narrow 31 stored = 1 ∨
          size.value = 65536 ∧ (narrow 31 stored < 1 ∨ 8 < narrow 31 stored)) := by
  have hpositive := size.positive
  have hle := size.decimalValue_le_value
  constructor
  · intro h hlow hhigh
    by_cases hsuffix : size.suffix = []
    · have hload := h hlow hhigh
        (fun key => if key = "socket_buff_size".toList then some size.text else none)
        { socketBuffSize := stored } { socketBuffSize := stored } rfl (if_pos rfl) rfl
      rw [socketBuffSize_loadConfig rfl (if_pos rfl)] at hload
      obtain ⟨bytes, (hbytes : parseBytes size.text (narrow 31 stored) = _), hleft⟩ := hload
      rw [size.parseBytes_text (by omega), if_pos hsuffix, scale_eq_ok_iff] at hbytes
      obtain ⟨_, rfl⟩ := hbytes
      obtain ⟨_, hunit⟩ | ⟨c, rest, hcons, _⟩ := size.suffix_cases
      · have hvalue : size.value = decimalValue size.digits := by
          rw [SizeText.value, hunit, Int.mul_one]
        right
        split_ifs at hleft with hrange
        · have hnumber : decimalValue size.digits = 65536 := by omega
          rw [hnumber] at hrange
          exact Or.inr ⟨by omega, by omega⟩
        · rw [hvalue] at hleft
          exact Or.inl (Int.eq_one_of_mul_eq_self_right (by omega) hleft)
      · exact absurd hcons (by simp [hsuffix])
    · exact Or.inl hsuffix
  · intro h hlow hhigh config settings logged hstored htext hlog
    rw [socketBuffSize_loadConfig hlog htext, hstored]
    by_cases hparsed : size.suffix ≠ [] ∨ narrow 31 stored = 1
    · refine ⟨size.value, (size.parseBytes_eq_ok_iff (by omega) _).mpr hparsed, ?_⟩
      rw [if_neg (by omega)]
    · -- the product is out of range, and the size it gives way to is the right one
      obtain ⟨hsuffix, hdefault⟩ := not_or.mp hparsed
      obtain ⟨hvalue, hrange⟩ :=
        ((h hlow hhigh).resolve_left hsuffix).resolve_left hdefault
      obtain ⟨hnil, hunit⟩ | ⟨c, rest, hcons, _⟩ := size.suffix_cases
      · have hnumber : decimalValue size.digits = 65536 := by
          rw [← hvalue, SizeText.value, hunit, Int.mul_one]
        have hint := fits_narrow 31 stored
        obtain ⟨hlow31, hhigh31⟩ := hint
        refine ⟨65536 * narrow 31 stored, ?_, ?_⟩
        · rw [size.parseBytes_text (by omega), if_pos hnil, hnumber, scale_eq_ok_iff]
          exact ⟨⟨by omega, by omega⟩, rfl⟩
        · rw [if_pos (by omega), hvalue]
          rfl
      · exact absurd (by simp [hcons]) hsuffix

/-- Only sizes with a unit mean what they say, apart from two accidents: a default
of one, and the plain number to which sizes out of range are set. -/
theorem sizes_mean_iff (size : SizeText) (stored : Int) :
    (Parsed size stored ↔
      (size.value < 2 ^ 63 → size.suffix ≠ [] ∨ narrow 31 stored = 1)) ∧
    (Loaded size stored ↔
      (8192 ≤ size.value → size.value ≤ 524288 →
        size.suffix ≠ [] ∨ narrow 31 stored = 1 ∨
          size.value = 65536 ∧ (narrow 31 stored < 1 ∨ 8 < narrow 31 stored))) :=
  ⟨forall_congr' fun hfits => size.parseBytes_eq_ok_iff hfits _, loaded_iff size stored⟩

/-- A size of 16 KB in bytes. -/
def plainSize : SizeText where
  digits := "16384".toList
  suffix := []
  unit := 1
  nonempty := by decide
  decimal := List.all_eq_true.mp (by decide)
  positive := by decide
  known := rfl

theorem not_every_size_means :
    ¬∀ (size : SizeText) (stored : Int), Parsed size stored ∧ Loaded size stored := by
  intro h
  obtain ⟨hparsed, _⟩ := h plainSize 65536
  exact absurd (hparsed (by decide)) (by decide)

example : (loadConfig (fun key => if key = "socket_buff_size".toList then some "16384".toList
    else none) {}).map Settings.socketBuffSize = .ok 65536 := by decide

end FastDCS.ByteSizes
