import FastDCS.Base128

/-!
`varint32.cc`: numbers written to a file and read from it byte by byte.
-/

namespace FastDCS.Varints

open FastDCS.Base128

/-- What is needed of `CodedOutputStream`. -/
structure Coder where
  writeVarint32ToArray : UInt32 → List UInt8
  standard : ∀ value, writeVarint32ToArray value = encode value.toNat

/-- A file that is read. -/
structure InFile where
  unread : List UInt8
  eof : Bool := false
  error : Bool := false

abbrev Reader := StateM InFile

/-- `getc`, with -1 for `EOF`. -/
def getc : Reader Int := do
  match (← get).unread with
  | [] =>
      modify fun input => { input with eof := true }
      return -1
  | byte :: rest =>
      modify fun input => { input with unread := rest }
      return byte.toNat

def getByte : Reader UInt32 := do
  return UInt32.ofInt (← getc)

/-- The steps for one of the first four bytes; `next` goes on with the result when
another byte follows. -/
def readGroup (shift : UInt32) (next : UInt32 → Reader (Bool × UInt32)) (result : UInt32) :
    Reader (Bool × UInt32) := do
  let b ← getByte
  let result := result ||| ((b &&& 0x7F) <<< shift)
  if b &&& 0x80 = 0 then return (true, result)
  next result

/-- The loop that discards what exceeds 32 bits; the result tells whether it gets
to `done`. -/
def discard : Nat → Reader Bool
  | 0 => return false
  | count + 1 => do
      let b ← getByte
      if b &&& 0x80 = 0 then return true
      discard count

/-- The steps from the fifth byte on. -/
def readLast (value result : UInt32) : Reader (Bool × UInt32) := do
  let b ← getByte
  let result := result ||| (b <<< 28)
  if b &&& 0x80 = 0 then return (true, result)
  if (← discard (10 - 5)) then return (true, result)
  return (false, value)

/-- `ReadVarint32`, with `*value` before and after the call. -/
def readVarint32 (value : UInt32) : Reader (Bool × UInt32) := do
  let input ← get
  if input.error || input.eof then return (false, value)
  readGroup 0 (readGroup 7 (readGroup 14 (readGroup 21 (readLast value)))) 0

/-- A file that is written, with the number of bytes it still takes. -/
structure OutFile where
  contents : List UInt8 := []
  room : Nat

/-- `fwrite` of single bytes. -/
def fwrite (buffer : List UInt8) (output : OutFile) : Nat × OutFile :=
  let count := min buffer.length output.room
  (count, { contents := output.contents ++ buffer.take count, room := output.room - count })

/-- More bytes are stored than a buffer holds. -/
inductive Fault where
  | overrun
deriving DecidableEq

def writeVarint32 (coder : Coder) (value : UInt32) (output : OutFile) :
    Except Fault (Bool × OutFile) :=
  let buffer := coder.writeVarint32ToArray value
  if 4 < buffer.length then .error .overrun
  else .ok (decide ((fwrite buffer output).1 = buffer.length), (fwrite buffer output).2)

section Bytes

theorem getByte_cons (byte : UInt8) (rest : List UInt8) (eof error : Bool) :
    getByte.run ⟨byte :: rest, eof, error⟩ =
      (UInt32.ofNat byte.toNat, (⟨rest, eof, error⟩ : InFile)) := by
  have hint : UInt32.ofInt (byte.toNat : Int) = UInt32.ofNat byte.toNat := by
    have hlt := byte.toNat_lt
    rw [UInt32.ofInt]
    congr 1
    omega
  rw [← hint]
  rfl

theorem getByte_nil (eof error : Bool) :
    getByte.run ⟨[], eof, error⟩ = (0xFFFFFFFF, (⟨[], true, error⟩ : InFile)) := rfl

/-- The high bit of a byte. -/
theorem highBit_eq_zero_iff {n : Nat} (h : n < 256) : UInt32.ofNat n &&& 0x80 = 0 ↔ n < 128 :=
  have hbytes : ∀ i : Fin 256, UInt32.ofNat i.val &&& 0x80 = 0 ↔ i.val < 128 := by decide +kernel
  hbytes ⟨n, h⟩

theorem toNat_lowBits {n : Nat} (h : n < 256) : (UInt32.ofNat n &&& 0x7F).toNat = n % 128 := by
  rw [UInt32.toNat_and, UInt32.toNat_ofNat', Nat.mod_eq_of_lt (by omega)]
  exact Nat.and_two_pow_sub_one_eq_mod n 7

/-- Adding a group above the bits read so far. -/
theorem toNat_or_shiftLeft {result group : UInt32} {s : Nat} (hs : s < 32)
    (hresult : result.toNat < 2 ^ s) (hgroup : group.toNat * 2 ^ s < 2 ^ 32) :
    (result ||| group <<< UInt32.ofNat s).toNat = result.toNat + group.toNat * 2 ^ s := by
  have hshift : (UInt32.ofNat s).toNat % 32 = s := by
    rw [UInt32.toNat_ofNat', Nat.mod_eq_of_lt (by omega : s < 2 ^ 32), Nat.mod_eq_of_lt hs]
  rw [UInt32.toNat_or, UInt32.toNat_shiftLeft, hshift, Nat.shiftLeft_eq, Nat.mod_eq_of_lt hgroup,
    Nat.or_comm, Nat.mul_comm, ← Nat.two_pow_add_eq_or_of_lt hresult, Nat.add_comm]

end Bytes

section Reading

variable {next : UInt32 → Reader (Bool × UInt32)} {shift result value : UInt32}
  {rest : List UInt8} {eof error : Bool}

theorem readGroup_cons (byte : UInt8) :
    (readGroup shift next result).run ⟨byte :: rest, eof, error⟩ =
      if byte.toNat < 128 then
        ((true, result ||| ((UInt32.ofNat byte.toNat &&& 0x7F) <<< shift)), ⟨rest, eof, error⟩)
      else
        (next (result ||| ((UInt32.ofNat byte.toNat &&& 0x7F) <<< shift))).run
          ⟨rest, eof, error⟩ := by
  rw [readGroup, StateT.run_bind, getByte_cons]
  show (if UInt32.ofNat byte.toNat &&& 0x80 = 0 then pure _ else next _ : Reader _).run _ = _
  by_cases hlast : byte.toNat < 128
  · rw [if_pos ((highBit_eq_zero_iff byte.toNat_lt).mpr hlast), if_pos hlast]
    rfl
  · rw [if_neg (mt (highBit_eq_zero_iff byte.toNat_lt).mp hlast), if_neg hlast]

/-- With the groups below bit `s` in the result, the next one is added. -/
theorem readGroup_encode {v s : Nat} (hs : s ≤ 21) (hv : v < 2 ^ 32)
    (hresult : result.toNat = v % 2 ^ s) :
    (readGroup (UInt32.ofNat s) next result).run ⟨encode (v / 2 ^ s) ++ rest, eof, error⟩ =
      if v / 2 ^ s < 128 then ((true, UInt32.ofNat v), ⟨rest, eof, error⟩)
      else
        (next (UInt32.ofNat (v % 2 ^ (s + 7)))).run
          ⟨encode (v / 2 ^ (s + 7)) ++ rest, eof, error⟩ := by
  have hpos : 0 < 2 ^ s := Nat.two_pow_pos s
  have hlt : result.toNat < 2 ^ s := hresult ▸ Nat.mod_lt _ hpos
  have hpow : 2 ^ s ≤ 2 ^ 21 := Nat.pow_le_pow_right (by decide) hs
  have hgroup : ∀ byte : UInt8, byte.toNat % 128 = v / 2 ^ s % 128 →
      (result ||| (UInt32.ofNat byte.toNat &&& 0x7F) <<< UInt32.ofNat s) =
        UInt32.ofNat (v % 2 ^ (s + 7)) := by
    intro byte hbyte
    apply UInt32.toNat_inj.mp
    have hlow := toNat_lowBits byte.toNat_lt
    have hbound : v / 2 ^ s % 128 * 2 ^ s < 2 ^ 32 :=
      calc
        v / 2 ^ s % 128 * 2 ^ s ≤ 127 * 2 ^ 21 :=
          Nat.mul_le_mul (Nat.le_of_lt_succ (Nat.mod_lt _ (by decide))) hpow
        _ < 2 ^ 32 := by decide
    rw [toNat_or_shiftLeft (by omega) hlt (by rw [hlow, hbyte]; exact hbound), hlow, hbyte, hresult,
      UInt32.toNat_ofNat', Nat.mod_eq_of_lt (Nat.lt_of_le_of_lt (Nat.mod_le _ _) hv), Nat.pow_add,
      Nat.mod_mul, Nat.mul_comm (2 ^ s)]
  by_cases hlast : v / 2 ^ s < 128
  · rw [encode_of_lt hlast, List.singleton_append, readGroup_cons, toNat_last hlast, if_pos hlast,
      if_pos hlast]
    have hgroup' := hgroup (UInt8.ofNat (v / 2 ^ s)) (by rw [toNat_last hlast])
    rw [toNat_last hlast] at hgroup'
    rw [hgroup', Nat.mod_eq_of_lt]
    rw [Nat.pow_add, Nat.mul_comm]
    exact (Nat.div_lt_iff_lt_mul hpos).mp hlast
  · rw [encode_of_le (Nat.not_lt.mp hlast), List.cons_append, readGroup_cons, toNat_group,
      if_neg (by omega), if_neg hlast]
    have hgroup' := hgroup (UInt8.ofNat (v / 2 ^ s % 128 + 128)) (by rw [toNat_group]; omega)
    rw [toNat_group] at hgroup'
    rw [hgroup', Nat.div_div_eq_div_mul, Nat.pow_add]

theorem readLast_encode {v : Nat} (hv : v < 2 ^ 32) (hresult : result.toNat = v % 2 ^ 28) :
    (readLast value result).run ⟨encode (v / 2 ^ 28) ++ rest, eof, error⟩ =
      ((true, UInt32.ofNat v), ⟨rest, eof, error⟩) := by
  have hlast : v / 2 ^ 28 < 128 := by omega
  have hbyte : (UInt32.ofNat (v / 2 ^ 28)).toNat = v / 2 ^ 28 := by
    rw [UInt32.toNat_ofNat', Nat.mod_eq_of_lt (by omega)]
  have hvalue : (result ||| UInt32.ofNat (v / 2 ^ 28) <<< 28) = UInt32.ofNat v := by
    apply UInt32.toNat_inj.mp
    have hor : (result ||| UInt32.ofNat (v / 2 ^ 28) <<< UInt32.ofNat 28).toNat =
        result.toNat + (UInt32.ofNat (v / 2 ^ 28)).toNat * 2 ^ 28 :=
      toNat_or_shiftLeft (by decide) (by omega) (by omega)
    rw [hbyte, hresult] at hor
    refine hor.trans ?_
    rw [UInt32.toNat_ofNat', Nat.mod_eq_of_lt hv]
    omega
  rw [encode_of_lt hlast, List.singleton_append, readLast, StateT.run_bind, getByte_cons,
    toNat_last hlast]
  show (if UInt32.ofNat (v / 2 ^ 28) &&& 0x80 = 0 then pure (true, result ||| _) else _ :
    Reader _).run _ = _
  rw [if_pos ((highBit_eq_zero_iff (by omega)).mpr hlast), hvalue]
  rfl

/-- A number is read back, and the bytes behind it are left. -/
theorem readVarint32_encode {v : Nat} (hv : v < 2 ^ 32) :
    (readVarint32 value).run ⟨encode v ++ rest, false, false⟩ =
      ((true, UInt32.ofNat v), ⟨rest, false, false⟩) := by
  have hzero : encode v = encode (v / 2 ^ 0) := by rw [Nat.pow_zero, Nat.div_one]
  have hmod : ∀ s, s + 7 ≤ 28 → (UInt32.ofNat (v % 2 ^ (s + 7))).toNat = v % 2 ^ (s + 7) := by
    intro s _
    rw [UInt32.toNat_ofNat', Nat.mod_eq_of_lt (Nat.lt_of_le_of_lt (Nat.mod_le _ _) hv)]
  show (readGroup (UInt32.ofNat 0) (readGroup (UInt32.ofNat 7) (readGroup (UInt32.ofNat 14)
    (readGroup (UInt32.ofNat 21) (readLast value)))) 0).run _ = _
  rw [hzero, readGroup_encode (by decide) hv (by rw [Nat.pow_zero, Nat.mod_one]; rfl)]
  split_ifs
  · rfl
  rw [readGroup_encode (by decide) hv (hmod 0 (by decide))]
  split_ifs
  · rfl
  rw [readGroup_encode (by decide) hv (hmod 7 (by decide))]
  split_ifs
  · rfl
  rw [readGroup_encode (by decide) hv (hmod 14 (by decide))]
  split_ifs
  · rfl
  exact readLast_encode hv (hmod 21 (by decide))

end Reading

section Refusing

/-- On bytes that all have another one to follow the call returns false and
leaves `*value` alone. -/
def Refuses (value : UInt32) (call : Reader (Bool × UInt32)) : Prop :=
  ∀ input : InFile, (∀ byte ∈ input.unread, Continues byte) → (call.run input).1 = (false, value)

variable {value : UInt32}

/-- Such bytes, or the end of the file, give a byte with the high bit set. -/
theorem getByte_continues (input : InFile) (h : ∀ byte ∈ input.unread, Continues byte) :
    ∃ b rest eof, getByte.run input = (b, (⟨rest, eof, input.error⟩ : InFile)) ∧
      b &&& 0x80 ≠ 0 ∧ ∀ byte ∈ rest, Continues byte := by
  obtain ⟨unread, eof, error⟩ := input
  cases unread with
  | nil => exact ⟨_, _, _, getByte_nil eof error, by decide, h⟩
  | cons byte rest =>
      refine ⟨_, _, _, getByte_cons byte rest eof error, ?_,
        fun other hother => h other (List.mem_cons_of_mem _ hother)⟩
      exact mt (highBit_eq_zero_iff byte.toNat_lt).mp
        (Nat.not_lt.mpr (h byte List.mem_cons_self))

theorem refuses_readGroup {next : UInt32 → Reader (Bool × UInt32)}
    (hnext : ∀ result, Refuses value (next result)) (shift result : UInt32) :
    Refuses value (readGroup shift next result) := by
  intro input h
  obtain ⟨b, rest, eof, hbyte, hbit, hrest⟩ := getByte_continues input h
  rw [readGroup, StateT.run_bind, hbyte]
  show ((if b &&& 0x80 = 0 then pure _ else next _ : Reader _).run _).1 = _
  rw [if_neg hbit]
  exact hnext _ _ hrest

theorem discard_continues (count : Nat) (input : InFile)
    (h : ∀ byte ∈ input.unread, Continues byte) : ((discard count).run input).1 = false := by
  induction count generalizing input with
  | zero => rfl
  | succ count ih =>
      obtain ⟨b, rest, eof, hbyte, hbit, hrest⟩ := getByte_continues input h
      rw [discard, StateT.run_bind, hbyte]
      show ((if b &&& 0x80 = 0 then pure true else discard count : Reader _).run _).1 = _
      rw [if_neg hbit]
      exact ih _ hrest

theorem refuses_readLast (result : UInt32) : Refuses value (readLast value result) := by
  intro input h
  obtain ⟨b, rest, eof, hbyte, hbit, hrest⟩ := getByte_continues input h
  rw [readLast, StateT.run_bind, hbyte]
  show ((if b &&& 0x80 = 0 then pure _ else (discard (10 - 5) >>= fun found =>
    if found then pure _ else pure (false, value)) : Reader _).run _).1 = _
  rw [if_neg hbit, StateT.run_bind]
  have hdiscard := discard_continues (10 - 5) ⟨rest, eof, input.error⟩ hrest
  rcases hrun : (discard (10 - 5)).run ⟨rest, eof, input.error⟩ with ⟨found, left⟩
  rw [hrun] at hdiscard
  obtain rfl : found = false := hdiscard
  rfl

theorem refuses_readVarint32 : Refuses value (readVarint32 value) := by
  intro input h
  rw [readVarint32, StateT.run_bind]
  show ((if (input.error || input.eof) = true then pure (false, value) else
    readGroup 0 (readGroup 7 (readGroup 14 (readGroup 21 (readLast value)))) 0 :
      Reader _).run input).1 = _
  split_ifs
  · rfl
  · exact refuses_readGroup (refuses_readGroup (refuses_readGroup (refuses_readGroup
      refuses_readLast 21) 14) 7) 0 0 input h

end Refusing

/-- Repeated calls with the same variable for `*value`. -/
def readRepeatedly : Nat → UInt32 → Reader (List (Bool × UInt32))
  | 0, _ => return []
  | calls + 1, value => do
      let (read, value) ← readVarint32 value
      return (read, value) :: (← readRepeatedly calls value)

/-- Repeated calls of `WriteVarint32`, with what they return. -/
def writeAll (coder : Coder) : List UInt32 → OutFile → Except Fault (List Bool × OutFile)
  | [], output => .ok ([], output)
  | value :: values, output => do
      let (written, output) ← writeVarint32 coder value output
      let (rest, output) ← writeAll coder values output
      return (written :: rest, output)

def bytesOf (coder : Coder) (values : List UInt32) : List UInt8 :=
  values.flatMap coder.writeVarint32ToArray

theorem readRepeatedly_succ (calls : Nat) (value : UInt32) (input : InFile) :
    ((readRepeatedly (calls + 1) value).run input).1 =
      ((readVarint32 value).run input).1 ::
        ((readRepeatedly calls ((readVarint32 value).run input).1.2).run
          ((readVarint32 value).run input).2).1 := rfl

/-- Reading what was written gives the numbers, and false from then on. -/
theorem readRepeatedly_bytesOf (coder : Coder) (values : List UInt32) (value : UInt32) :
    ((readRepeatedly (values.length + 1) value).run ⟨bytesOf coder values, false, false⟩).1 =
      values.map (true, ·) ++ [(false, values.getLastD value)] := by
  induction values generalizing value with
  | nil =>
      have hread : ((readVarint32 value).run ⟨[], false, false⟩).1 = (false, value) :=
        refuses_readVarint32 ⟨[], false, false⟩ fun byte hbyte => absurd hbyte List.not_mem_nil
      rw [readRepeatedly_succ]
      exact congrArg (· :: []) hread
  | cons v values ih =>
      have hread : (readVarint32 value).run ⟨bytesOf coder (v :: values), false, false⟩ =
          ((true, v), ⟨bytesOf coder values, false, false⟩) := by
        rw [bytesOf, List.flatMap_cons, coder.standard, readVarint32_encode v.toNat_lt,
          UInt32.ofNat_toNat]
        rfl
      rw [List.length_cons, readRepeatedly_succ, hread, ih v, List.getLastD_cons]
      rfl

theorem fwrite_of_le {buffer : List UInt8} {output : OutFile} (h : buffer.length ≤ output.room) :
    fwrite buffer output =
      (buffer.length, ⟨output.contents ++ buffer, output.room - buffer.length⟩) := by
  rw [fwrite, min_eq_left h, List.take_length]

theorem length_buffer_le_iff (coder : Coder) (value : UInt32) :
    (coder.writeVarint32ToArray value).length ≤ 4 ↔ value.toNat < 2 ^ 28 := by
  rw [coder.standard]
  exact length_encode_le_iff value.toNat 3

theorem writeVarint32_of_short {coder : Coder} {value : UInt32} {output : OutFile}
    (h : (coder.writeVarint32ToArray value).length ≤ 4) :
    writeVarint32 coder value output =
      .ok (decide ((fwrite (coder.writeVarint32ToArray value) output).1 =
        (coder.writeVarint32ToArray value).length),
          (fwrite (coder.writeVarint32ToArray value) output).2) :=
  if_neg (Nat.not_lt.mpr h)

/-- As long as no number needs a fifth byte, all of them get into the file. -/
theorem writeAll_eq_ok {coder : Coder} {values : List UInt32}
    (hvalues : ∀ v ∈ values, v.toNat < 2 ^ 28) {output : OutFile}
    (hroom : (bytesOf coder values).length ≤ output.room) :
    writeAll coder values output =
      .ok (values.map fun _ => true, ⟨output.contents ++ bytesOf coder values,
        output.room - (bytesOf coder values).length⟩) := by
  induction values generalizing output with
  | nil => simp [writeAll, bytesOf]
  | cons v values ih =>
      have hsmall := (length_buffer_le_iff coder v).mpr (hvalues v List.mem_cons_self)
      simp only [bytesOf, List.flatMap_cons, List.length_append] at hroom
      have hwrite : writeVarint32 coder v output =
          .ok (true, ⟨output.contents ++ coder.writeVarint32ToArray v,
            output.room - (coder.writeVarint32ToArray v).length⟩) := by
        rw [writeVarint32_of_short hsmall, fwrite_of_le (by omega), decide_eq_true rfl]
      have hroom' : (bytesOf coder values).length ≤
          output.room - (coder.writeVarint32ToArray v).length := by
        rw [bytesOf]
        omega
      have hrest : writeAll coder values ⟨output.contents ++ coder.writeVarint32ToArray v,
          output.room - (coder.writeVarint32ToArray v).length⟩ = _ :=
        ih (fun w hw => hvalues w (List.mem_cons_of_mem _ hw)) hroom'
      rw [writeAll, hwrite]
      show ((writeAll coder values _).bind fun written => _) = _
      rw [hrest]
      simp only [bytesOf, List.flatMap_cons, List.append_assoc, List.length_append,
        Nat.sub_add_eq]
      rfl

/-- No buffer has been overrun where the writing ends. -/
theorem small_of_writeAll {coder : Coder} {values : List UInt32} {output : OutFile}
    {result : List Bool × OutFile} (h : writeAll coder values output = .ok result) :
    ∀ v ∈ values, v.toNat < 2 ^ 28 := by
  induction values generalizing output result with
  | nil => exact fun v hv => absurd hv List.not_mem_nil
  | cons value values ih =>
      rw [writeAll] at h
      rcases Nat.lt_or_ge 4 (coder.writeVarint32ToArray value).length with hlong | hshort
      · have hfault : writeVarint32 coder value output = .error .overrun := if_pos hlong
        rw [hfault] at h
        cases h
      · rw [writeVarint32_of_short hshort] at h
        change ((writeAll coder values _).bind fun written => _) = _ at h
        cases hrest : writeAll coder values (fwrite (coder.writeVarint32ToArray value) output).2 with
        | error fault =>
            rw [hrest] at h
            cases h
        | ok rest =>
            intro v hv
            rcases List.mem_cons.mp hv with rfl | hv
            · exact (length_buffer_le_iff coder v).mp hshort
            · exact ih hrest v hv

/-- What is expected for a list of numbers: writing them to a file with room stays
inside the buffer, reading them gives them back and then false, and a number that
is cut off is refused. -/
structure RoundTrips (coder : Coder) (values : List UInt32) : Prop where
  roundTrip : ∀ room value, (bytesOf coder values).length ≤ room →
    ∃ output, writeAll coder values { room := room } = .ok (values.map fun _ => true, output) ∧
      ((readRepeatedly (values.length + 1) value).run { unread := output.contents }).1 =
        values.map (true, ·) ++ [(false, values.getLastD value)]
  truncated : ∀ v ∈ values, ∀ cut, cut <+: coder.writeVarint32ToArray v →
    cut ≠ coder.writeVarint32ToArray v → ∀ value eof error,
      ((readVarint32 value).run ⟨cut, eof, error⟩).1 = (false, value)

theorem varints_roundTrip_iff (coder : Coder) (values : List UInt32) :
    RoundTrips coder values ↔ ∀ v ∈ values, v.toNat < 2 ^ 28 := by
  constructor
  · intro h
    obtain ⟨output, hwrite, _⟩ := h.roundTrip _ 0 (le_refl _)
    exact small_of_writeAll hwrite
  · intro hvalues
    refine ⟨fun room value hroom => ?_, fun v _ cut hcut hne value eof error => ?_⟩
    · refine ⟨_, writeAll_eq_ok hvalues hroom, ?_⟩
      exact readRepeatedly_bytesOf coder values value
    · rw [coder.standard] at hcut hne
      exact refuses_readVarint32 ⟨cut, eof, error⟩ (continues_of_cut hcut hne)

/-- A coder that emits the encoding. -/
def standardCoder : Coder := ⟨fun value => encode value.toNat, fun _ => rfl⟩

theorem not_every_list_roundTrips : ¬∀ values, RoundTrips standardCoder values := by
  intro h
  obtain ⟨output, hwrite, _⟩ := (h [0x10000000]).roundTrip _ 0 (le_refl _)
  exact absurd (small_of_writeAll hwrite _ List.mem_cons_self) (by decide)

end FastDCS.Varints
