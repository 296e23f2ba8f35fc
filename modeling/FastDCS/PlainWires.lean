import FastDCS.Base128
import FastDCS.GeneratedMessages

/-!
The encoding that the protobuf library documents, as a library for the generated code. Groups are
not read.
-/

namespace FastDCS.PlainWires

open FastDCS.Base128
open FastDCS.TaggedFields
open FastDCS.GeneratedMessages

/-- A number of at most so many bytes, and what follows it. -/
def readVarint : (count : Nat) → Bytes → Option (Nat × Bytes)
  | 0, _ => none
  | _ + 1, [] => none
  | count + 1, byte :: s =>
      if byte.toNat < 128 then some (byte.toNat, s)
      else (readVarint count s).map fun (high, rest) => (byte.toNat - 128 + 128 * high, rest)

theorem readVarint_encode {count v : Nat} (hv : v < 128 ^ (count + 1)) (rest : Bytes) :
    readVarint (count + 1) (encode v ++ rest) = some (v, rest) := by
  induction count generalizing v with
  | zero =>
      rw [zero_add, pow_one] at hv
      rw [encode_of_lt hv, List.singleton_append, readVarint, toNat_last hv, if_pos hv]
  | succ count ih =>
      rcases Nat.lt_or_ge v 128 with hlt | hge
      · rw [encode_of_lt hlt, List.singleton_append, readVarint, toNat_last hlt, if_pos hlt]
      · have hhigh : v / 128 < 128 ^ (count + 1) := by
          rw [pow_succ] at hv
          exact Nat.div_lt_of_lt_mul (by rwa [Nat.mul_comm])
        rw [encode_of_le hge, List.cons_append, readVarint, toNat_group, if_neg (by omega),
          ih hhigh]
        simp only [Option.map_some, Option.some.injEq, Prod.mk.injEq, and_true]
        omega

/-- What is read depends on the bytes that are taken only. -/
def Replays {α : Type} (read : Bytes → Option (α × Bytes)) : Prop :=
  ∀ s v rest, read s = some (v, rest) →
    ∃ taken, s = taken ++ rest ∧ ∀ t, read (taken ++ t) = some (v, t)

section
variable {α : Type} {read : Bytes → Option (α × Bytes)} {s rest : Bytes} {v : α}

theorem Replays.le (hread : Replays read) (h : read s = some (v, rest)) :
    rest.length ≤ s.length := by
  obtain ⟨taken, rfl, -⟩ := hread _ _ _ h
  simp

theorem Replays.append (hread : Replays read) (h : read s = some (v, rest)) (t : Bytes) :
    read (s ++ t) = some (v, rest ++ t) := by
  obtain ⟨taken, rfl, hreplay⟩ := hread _ _ _ h
  rw [List.append_assoc]
  exact hreplay _

/-- The bytes that a value is read from, in place of the value. -/
def takenBy (read : Bytes → Option (α × Bytes)) (s : Bytes) : Option (Bytes × Bytes) :=
  (read s).map fun (_, rest) => (s.take (s.length - rest.length), rest)

theorem takenBy_eq_some (hread : Replays read) {taken : Bytes}
    (h : takenBy read s = some (taken, rest)) :
    s = taken ++ rest ∧ ∀ t, takenBy read (taken ++ t) = some (taken, t) := by
  obtain ⟨⟨v, behind⟩, hsome, heq⟩ := Option.map_eq_some_iff.mp h
  obtain ⟨prior, rfl, hreplay⟩ := hread _ _ _ hsome
  obtain ⟨htaken, rfl⟩ := Prod.mk.inj heq
  rw [List.length_append, Nat.add_sub_cancel, List.take_left] at htaken
  refine ⟨by rw [htaken], fun t => ?_⟩
  rw [← htaken, takenBy, hreplay t]
  simp

end

theorem replays_readVarint (count : Nat) : Replays (readVarint count) := by
  induction count with
  | zero =>
      intro s v rest h
      cases h
  | succ count ih =>
      intro s v rest h
      cases s with
      | nil => cases h
      | cons byte s =>
          rw [readVarint] at h
          split_ifs at h with hlast
          · simp only [Option.some.injEq, Prod.mk.injEq] at h
            obtain ⟨rfl, rfl⟩ := h
            refine ⟨[byte], rfl, fun t => ?_⟩
            rw [List.singleton_append, readVarint, if_pos hlast]
          · obtain ⟨⟨high, behind⟩, hread, heq⟩ := Option.map_eq_some_iff.mp h
            obtain ⟨rfl, rfl⟩ := Prod.mk.inj heq
            obtain ⟨taken, rfl, hreplay⟩ := ih _ _ _ hread
            refine ⟨byte :: taken, rfl, fun t => ?_⟩
            rw [List.cons_append, readVarint, if_neg hlast, hreplay t]
            rfl

theorem lt_of_readVarint {count v : Nat} {s rest : Bytes}
    (h : readVarint count s = some (v, rest)) : rest.length < s.length := by
  obtain ⟨taken, rfl, hreplay⟩ := replays_readVarint count _ _ _ h
  have hne : taken ≠ [] := by
    rintro rfl
    have hnil := hreplay []
    cases count <;> simp [readVarint] at hnil
  have hpos := List.length_pos_of_ne_nil hne
  rw [List.length_append]
  omega

/-- The bytes behind their number, which is an `int`. -/
def readSized (s : Bytes) : Option (Bytes × Bytes) :=
  match readVarint 10 s with
  | none => none
  | some (size, rest) =>
      if size % 2 ^ 32 < limit ∧ size % 2 ^ 32 ≤ rest.length then
        some (rest.take (size % 2 ^ 32), rest.drop (size % 2 ^ 32))
      else none

theorem readSized_encode {payload : Bytes} (hsize : payload.length < limit) (rest : Bytes) :
    readSized (encode payload.length ++ payload ++ rest) = some (payload, rest) := by
  have hlimit : limit = 2 ^ 31 := rfl
  have hmod : payload.length % 2 ^ 32 = payload.length := Nat.mod_eq_of_lt (by omega)
  have hread : readVarint 10 (encode payload.length ++ (payload ++ rest)) =
      some (payload.length, payload ++ rest) := readVarint_encode (by omega) _
  rw [readSized, List.append_assoc, hread]
  simp only [hmod]
  rw [if_pos ⟨hsize, by simp⟩, List.take_left, List.drop_left]

theorem replays_readSized : Replays readSized := by
  intro s payload rest h
  unfold readSized at h
  cases hread : readVarint 10 s with
  | none => simp [hread] at h
  | some read =>
      obtain ⟨size, behind⟩ := read
      obtain ⟨taken, rfl, hreplay⟩ := replays_readVarint 10 _ _ _ hread
      simp only [hread] at h
      split_ifs at h with hfits
      simp only [Option.some.injEq, Prod.mk.injEq] at h
      obtain ⟨hpayload, rfl⟩ := h
      refine ⟨taken ++ payload, ?_, fun t => ?_⟩
      · rw [List.append_assoc, ← hpayload, List.take_append_drop]
      · have hlength : payload.length = size % 2 ^ 32 := by
          rw [← hpayload, List.length_take]
          omega
        rw [readSized, List.append_assoc, hreplay]
        simp only [← hlength, List.length_append]
        rw [if_pos ⟨by omega, by omega⟩, List.take_left, List.drop_left]

/-- Values that are written as a number. -/
def varintScalar {α : Type} (toNat : α → Nat) (ofNat : Nat → α)
    (hofNat : ∀ v, ofNat (toNat v) = v) (hsmall : ∀ v, toNat v < 2 ^ 64) : Scalar α where
  read s :=
    match readVarint 10 s with
    | none => .failed none
    | some (n, rest) => .read (ofNat n) rest
  cachedSize _ := 0
  write _ v := encode (toNat v)
  byteSize v := (encode (toNat v)).length
  Sound _ := True
  sound _ := trivial
  read_le {s _ _} h := by
    cases hread : readVarint 10 s with
    | none => simp [hread] at h
    | some read =>
        simp only [hread, Reading.read.injEq] at h
        rw [← h.2]
        exact (replays_readVarint 10).le hread
  read_append {s t _ _} h := by
    cases hread : readVarint 10 s with
    | none => simp [hread] at h
    | some read =>
        simp only [hread, Reading.read.injEq] at h
        rw [(replays_readVarint 10).append hread t, ← h.1, ← h.2]
  sound_of_read _ := trivial
  read_write {v rest} _ _ := by
    have hv := hsmall v
    rw [readVarint_encode (by omega)]
    simp only [hofNat]
  length_write _ := rfl

def bytes : Scalar Bytes where
  read s :=
    match readSized s with
    | none => .failed none
    | some (payload, rest) => .read payload rest
  cachedSize _ := 0
  write _ v := encode v.length ++ v
  byteSize v := (encode v.length).length + v.length
  Sound _ := True
  sound _ := trivial
  read_le {s _ _} h := by
    cases hread : readSized s with
    | none => simp [hread] at h
    | some read =>
        simp only [hread, Reading.read.injEq] at h
        rw [← h.2]
        exact replays_readSized.le hread
  read_append {s t _ _} h := by
    cases hread : readSized s with
    | none => simp [hread] at h
    | some read =>
        simp only [hread, Reading.read.injEq] at h
        rw [replays_readSized.append hread t, ← h.1, ← h.2]
  sound_of_read _ := trivial
  read_write _ hsize := by
    rw [readSized_encode (by omega)]
  length_write _ := List.length_append

def readMessage {M : Type} (merge : Bytes → Outcome M) (s : Bytes) : Reading M :=
  match readSized s with
  | none => .failed none
  | some (payload, rest) =>
      match merge payload with
      | .merged m _ true => .read m rest
      | .merged m _ false => .failed (some m)
      | .failed m => .failed (some m)

theorem of_readMessage {M : Type} {merge : Bytes → Outcome M} {s rest : Bytes} {m : M}
    (h : readMessage merge s = .read m rest) :
    ∃ payload behind, readSized s = some (payload, rest) ∧
      merge payload = .merged m behind true := by
  unfold readMessage at h
  cases hread : readSized s with
  | none => simp [hread] at h
  | some read =>
      obtain ⟨payload, behind⟩ := read
      simp only [hread] at h
      cases hmerge : merge payload with
      | failed m' => simp [hmerge] at h
      | merged m' behind' ended =>
          cases ended with
          | false => simp [hmerge] at h
          | true =>
              simp only [hmerge, Reading.read.injEq] at h
              obtain ⟨rfl, rfl⟩ := h
              exact ⟨payload, behind', rfl, hmerge⟩

theorem readMessage_of_merged {M : Type} {merge : Bytes → Outcome M} {s payload rest behind : Bytes}
    {m : M} (hread : readSized s = some (payload, rest))
    (hmerge : merge payload = .merged m behind true) : readMessage merge s = .read m rest := by
  rw [readMessage, hread]
  simp only [hmerge]

def nested : Nested limit where
  readMessage := readMessage
  writeSize := encode
  sizeSize size := (encode size).length
  length_writeSize _ := rfl
  readMessage_le h := by
    obtain ⟨payload, behind, hread, -⟩ := of_readMessage h
    exact replays_readSized.le hread
  readMessage_append {_ _ _ t _ _} h := by
    obtain ⟨payload, behind, hread, hmerge⟩ := of_readMessage h
    exact readMessage_of_merged (replays_readSized.append hread t) hmerge
  merged_of_readMessage h := by
    obtain ⟨payload, behind, -, hmerge⟩ := of_readMessage h
    exact ⟨payload, behind, hmerge⟩
  readMessage_writeSize hmerge hsize := readMessage_of_merged (readSized_encode hsize _) hmerge

def readFixed (size : Nat) (s : Bytes) : Option (Bytes × Bytes) :=
  if size ≤ s.length then some (s.take size, s.drop size) else none

theorem replays_readFixed (size : Nat) : Replays (readFixed size) := by
  intro s v rest h
  unfold readFixed at h
  split_ifs at h with hfits
  simp only [Option.some.injEq, Prod.mk.injEq] at h
  obtain ⟨rfl, rfl⟩ := h
  refine ⟨s.take size, (List.take_append_drop _ _).symm, fun t => ?_⟩
  have hlength : (s.take size).length = size := List.length_take_of_le hfits
  rw [readFixed, List.length_append, if_pos (by omega), List.take_left' hlength,
    List.drop_left' hlength]

/-- The bytes of a field behind its tag, and what follows them. -/
def payloadOf (tag : UInt32) (s : Bytes) : Option (Bytes × Bytes) :=
  if wireType tag = 0 then takenBy (readVarint 10) s
  else if wireType tag = 1 then takenBy (readFixed 8) s
  else if wireType tag = 2 then takenBy readSized s
  else if wireType tag = 5 then takenBy (readFixed 4) s
  else none

theorem payloadOf_eq_some {tag : UInt32} {s payload rest : Bytes}
    (h : payloadOf tag s = some (payload, rest)) :
    s = payload ++ rest ∧ ∀ t, payloadOf tag (payload ++ t) = some (payload, t) := by
  unfold payloadOf at h ⊢
  split_ifs at h ⊢
  · exact takenBy_eq_some (replays_readVarint 10) h
  · exact takenBy_eq_some (replays_readFixed 8) h
  · exact takenBy_eq_some replays_readSized h
  · exact takenBy_eq_some (replays_readFixed 4) h

/-- An unknown field: its tag and the bytes that it takes. -/
structure UnknownField where
  tag : UInt32
  payload : Bytes
  complete : tag ≠ 0 ∧ ∀ t, payloadOf tag (payload ++ t) = some (payload, t)

theorem UnknownField.wireType_ne (u : UnknownField) : wireType u.tag ≠ endGroup := by
  intro hgroup
  have h := u.complete.2 []
  rw [payloadOf, hgroup] at h
  cases h

def skipField (tag : UInt32) (s : Bytes) : Reading UnknownField :=
  if htag : tag = 0 then .failed none
  else
    match h : payloadOf tag s with
    | none => .failed none
    | some (payload, rest) => .read ⟨tag, payload, htag, (payloadOf_eq_some h).2⟩ rest

theorem skipField_eq_read {tag : UInt32} {s rest : Bytes} {u : UnknownField}
    (h : skipField tag s = .read u rest) : u.tag = tag ∧ s = u.payload ++ rest := by
  unfold skipField at h
  split_ifs at h with htag
  split at h
  · cases h
  · rename_i payload behind hpayload
    simp only [Reading.read.injEq] at h
    obtain ⟨rfl, rfl⟩ := h
    exact ⟨rfl, (payloadOf_eq_some hpayload).1⟩

theorem skipField_payload (u : UnknownField) (t : Bytes) :
    skipField u.tag (u.payload ++ t) = .read u t := by
  rw [skipField, dif_neg u.complete.1]
  have hcomplete := u.complete.2 t
  split
  · simp_all
  · rename_i payload behind hpayload
    obtain ⟨rfl, rfl⟩ := Prod.mk.inj (Option.some.inj (hcomplete.symm.trans hpayload))
    rfl

def readTag (s : Bytes) : UInt32 × Bytes :=
  match readVarint 10 s with
  | none => (0, [])
  | some (n, rest) => (UInt32.ofNat n, rest)

def wire : Wire limit UnknownField where
  readTag := readTag
  expectTag tag s := (readTag s).1 == tag
  expectAtEnd := List.isEmpty
  skipField := skipField
  writeTag tag := encode tag.toNat
  unknownTag := UnknownField.tag
  writeUnknown := UnknownField.payload
  unknownSize u := (encode u.tag.toNat).length + u.payload.length
  readTag_nil := rfl
  readTag_lt {s} h := by
    unfold readTag at h ⊢
    cases hread : readVarint 10 s with
    | none => simp [hread] at h
    | some read => exact lt_of_readVarint hread
  readTag_append {s t} h := by
    unfold readTag at h ⊢
    cases hread : readVarint 10 s with
    | none => simp [hread] at h
    | some read => rw [(replays_readVarint 10).append hread t]
  readTag_writeTag {tag rest} _ := by
    have hlt := tag.toNat_lt
    rw [readTag, readVarint_encode (by omega)]
    simp
  expectTag_sound h := by simpa using h
  expectAtEnd_sound h := List.isEmpty_iff.mp h
  skipField_le h := by
    rw [(skipField_eq_read h).2]
    simp
  skipField_append {tag s t u rest} h := by
    obtain ⟨rfl, rfl⟩ := skipField_eq_read h
    rw [List.append_assoc]
    exact skipField_payload u _
  unknownTag_of_skipField h := (skipField_eq_read h).1
  skipField_writeUnknown _ := skipField_payload _ _
  unknownTag_ne_zero u := u.complete.1
  wireType_unknownTag := UnknownField.wireType_ne
  length_unknown _ := List.length_append

theorem int64_ofNat_toNat (v : Int64) : Int64.ofNat v.toUInt64.toNat = v := by
  rw [← UInt64.toInt64_ofNat', UInt64.ofNat_toNat, Int64.toInt64_toUInt64]

theorem int32_ofNat_toNat (v : Int32) : Int32.ofNat v.toInt64.toUInt64.toNat = v := by
  rw [← Int64.toInt32_ofNat', int64_ofNat_toNat, Int32.toInt32_toInt64]

def int64 : Scalar Int64 :=
  varintScalar (fun v => v.toUInt64.toNat) Int64.ofNat int64_ofNat_toNat
    fun v => v.toUInt64.toNat_lt

def int32 : Scalar Int32 :=
  varintScalar (fun v => v.toInt64.toUInt64.toNat) Int32.ofNat int32_ofNat_toNat
    fun v => v.toInt64.toUInt64.toNat_lt

def bool : Scalar Bool :=
  varintScalar Bool.toNat (fun n => n % 2 ^ 32 != 0) (fun v => by cases v <;> rfl)
    fun v => by cases v <;> decide

def varintField (number : UInt32) (h : ValidTag number wiretypeVarint) (value : Int32) :
    UnknownField where
  tag := makeTag number wiretypeVarint
  payload := encode value.toInt64.toUInt64.toNat
  complete := by
    refine ⟨h.1, fun t => ?_⟩
    have hsmall := value.toInt64.toUInt64.toNat_lt
    have htype : wireType (makeTag number wiretypeVarint) = 0 := h.2.2
    rw [payloadOf, if_pos htype, takenBy, readVarint_encode (by omega)]
    simp

theorem validTag_one : ValidTag 1 wiretypeVarint := by decide

def addVarint (number : UInt32) (value : Int32) : UnknownField :=
  if h : ValidTag number wiretypeVarint then varintField number h value
  else varintField 1 validTag_one value

theorem payload_addVarint (number : UInt32) (value : Int32) :
    (addVarint number value).payload = encode value.toInt64.toUInt64.toNat := by
  unfold addVarint
  split_ifs <;> rfl

def library : Library where
  Unknown := UnknownField
  wire := wire
  nested := nested
  bytes := bytes
  string := bytes
  int64 := int64
  int32 := int32
  bool := bool
  enum := int32
  addVarint := addVarint
  unknownTag_addVarint number value h := by
    show (addVarint number value).tag = _
    rw [addVarint, dif_pos h]
    rfl
  read_addVarint number value rest := by
    show int32.read ((addVarint number value).payload ++ rest) = _
    rw [payload_addVarint]
    apply int32.read_write trivial
    have hlength := (length_encode_le_iff value.toInt64.toUInt64.toNat 9).mpr
      (value.toInt64.toUInt64.toNat_lt.trans (by decide))
    exact Nat.lt_of_le_of_lt hlength (by decide)
  length_writeTag tag _ hsmall := by
    show (encode tag.toNat).length = 1
    rw [encode_of_lt (UInt32.lt_iff_toNat_lt.mp hsmall)]
    rfl
  byteSize_bool v := by
    show (encode v.toNat).length = 1
    rw [encode_of_lt (by cases v <;> decide)]
    rfl
  length_le_bytes v := Nat.le_add_left _ _

end FastDCS.PlainWires
