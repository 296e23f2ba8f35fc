import FastDCS.GeneratedMessages

/-!
The cases of `MergePartialFromCodedStream` for each message of `tracker_protocol.pb.cc`. Reading,
`ByteSize`, `SerializeWithCachedSizes` and `IsInitialized` of a message are those of its schema.
-/

namespace FastDCS.GeneratedMessages

open FastDCS.TaggedFields

variable {U : Type} (lib : Library)

namespace KeyValuePair

theorem mul_def (m source : KeyValuePair U) : m * source = m.mergeFrom source := rfl

theorem one_def : (1 : KeyValuePair U) = {} := rfl

def fields : List (Field limit (KeyValuePair lib.Unknown)) :=
  [optionalField 1 wiretypeLengthDelimited (by decide) lib.bytes (·.key)
      (fun v m => { m with key := some v }) ({ key := · })
      (fun v m => by simp [mul_def, mergeFrom]) rfl,
    optionalField 2 wiretypeLengthDelimited (by decide) lib.bytes (·.value)
      (fun v m => { m with value := some v }) ({ value := · })
      (fun v m => by simp [mul_def, mergeFrom]) rfl]

theorem numbers_nodup : ((fields lib).map (·.number)).Nodup :=
  (by decide : ([1, 2] : List UInt32).Nodup)

theorem tags : (fields lib).map Field.tag = [10, 18] := by
  simp [fields, optionalField, Field.tag, makeTag]
  decide

theorem soundValues (m : KeyValuePair lib.Unknown) : SoundValues (fields lib) m := by
  simp [SoundValues, fields, optionalField, Scalar.sound]

def schema : Schema lib.wire (KeyValuePair lib.Unknown) where
  fields := fields lib
  unknowns := unknownFields
  unknownPart us := { unknownFields := us }
  isInitialized _ := true
  numbers_nodup := numbers_nodup lib
  length_writeTag := by
    apply lib.length_writeTags _ (tags lib)
    · simp [fields, optionalField]
    · simp
  unknownPart_nil := rfl
  unknownPart_cons _ _ := rfl
  assemble m := by
    simp [fields, optionalField, mul_def, one_def, mergeFrom]
  values_one := soundValues lib _
  values_mul _ _ := soundValues lib _
  values_unknownPart _ := soundValues lib _
  values_add _ _ _ _ := soundValues lib _
  unknowns_one := rfl
  unknowns_mul _ _ := rfl
  unknowns_unknownPart _ := rfl
  unrecognized_of_add := by
    simp [fields, optionalField, one_def]

end KeyValuePair

namespace KeyValuesPair

theorem mul_def (m source : KeyValuesPair U) : m * source = m.mergeFrom source := rfl

theorem one_def : (1 : KeyValuesPair U) = {} := rfl

def fields : List (Field limit (KeyValuesPair lib.Unknown)) :=
  [optionalField 1 wiretypeLengthDelimited (by decide) lib.bytes (·.key)
      (fun v m => { m with key := some v }) ({ key := · })
      (fun v m => by simp [mul_def, mergeFrom]) rfl,
    repeatedField 2 (by decide) lib.bytes.toFormat (·.value)
      (fun v m => { m with value := m.value ++ [v] }) ({ value := · })
      (fun v m => by simp [mul_def, mergeFrom]) rfl (fun v vs => rfl)]

theorem numbers_nodup : ((fields lib).map (·.number)).Nodup :=
  (by decide : ([1, 2] : List UInt32).Nodup)

theorem tags : (fields lib).map Field.tag = [10, 18] := by
  simp [fields, optionalField, repeatedField, Field.tag, makeTag]
  decide

theorem soundValues (m : KeyValuesPair lib.Unknown) : SoundValues (fields lib) m := by
  simp [SoundValues, fields, optionalField, repeatedField, Scalar.sound]

def schema : Schema lib.wire (KeyValuesPair lib.Unknown) where
  fields := fields lib
  unknowns := unknownFields
  unknownPart us := { unknownFields := us }
  isInitialized _ := true
  numbers_nodup := numbers_nodup lib
  length_writeTag := by
    apply lib.length_writeTags _ (tags lib)
    · simp [fields, optionalField, repeatedField]
    · simp
  unknownPart_nil := rfl
  unknownPart_cons _ _ := rfl
  assemble m := by
    simp [fields, optionalField, repeatedField, mul_def, one_def, mergeFrom]
  values_one := soundValues lib _
  values_mul _ _ := soundValues lib _
  values_unknownPart _ := soundValues lib _
  values_add _ _ _ _ := soundValues lib _
  unknowns_one := rfl
  unknowns_mul _ _ := rfl
  unknowns_unknownPart _ := rfl
  unrecognized_of_add := by
    simp [fields, optionalField, repeatedField, one_def]

end KeyValuesPair

namespace FdcsTask

theorem mul_def (m source : FdcsTask U) : m * source = m.mergeFrom source := rfl

theorem one_def : (1 : FdcsTask U) = {} := rfl

def fields : List (Field limit (FdcsTask lib.Unknown)) :=
  [optionalField 1 wiretypeLengthDelimited (by decide) lib.string (·.taskId)
      (fun v m => { m with taskId := some v }) ({ taskId := · })
      (fun v m => by simp [mul_def, mergeFrom]) rfl,
    optionalField 2 wiretypeVarint (by decide) lib.int64 (·.leaseTime)
      (fun v m => { m with leaseTime := some v }) ({ leaseTime := · })
      (fun v m => by simp [mul_def, mergeFrom]) rfl,
    repeatedField 3 (by decide) ((KeyValuesPair.schema lib).format lib.nested)
      (·.keyValuesPairs) (fun v m => { m with keyValuesPairs := m.keyValuesPairs ++ [v] })
      ({ keyValuesPairs := · }) (fun v m => by simp [mul_def, mergeFrom]) rfl (fun v vs => rfl)]

theorem numbers_nodup : ((fields lib).map (·.number)).Nodup :=
  (by decide : ([1, 2, 3] : List UInt32).Nodup)

theorem tags : (fields lib).map Field.tag = [10, 16, 26] := by
  simp [fields, optionalField, repeatedField, Field.tag, makeTag]
  decide

theorem soundValues_iff (m : FdcsTask lib.Unknown) :
    SoundValues (fields lib) m ↔
      ∀ v ∈ m.keyValuesPairs, (KeyValuesPair.schema lib).Sound v := by
  simp [SoundValues, fields, optionalField, repeatedField, Scalar.sound,
    Schema.format]

def schema : Schema lib.wire (FdcsTask lib.Unknown) where
  fields := fields lib
  unknowns := unknownFields
  unknownPart us := { unknownFields := us }
  isInitialized m := m.taskId.isSome
  numbers_nodup := numbers_nodup lib
  length_writeTag := by
    apply lib.length_writeTags _ (tags lib)
    · simp [fields, optionalField, repeatedField]
    · simp
  unknownPart_nil := rfl
  unknownPart_cons _ _ := rfl
  assemble m := by
    simp [fields, optionalField, repeatedField, mul_def, one_def, mergeFrom]
  values_one := by
    rw [soundValues_iff]
    simp [one_def]
  values_mul hm hd := by
    rw [soundValues_iff] at hm hd ⊢
    simp only [mul_def, mergeFrom, List.forall_mem_append]
    exact ⟨hm, hd⟩
  values_unknownPart us := by
    rw [soundValues_iff]
    simp
  values_add := by
    simp only [soundValues_iff]
    simp [fields, optionalField, repeatedField, one_def, Schema.format]
  unknowns_one := rfl
  unknowns_mul _ _ := rfl
  unknowns_unknownPart _ := rfl
  unrecognized_of_add := by
    simp [fields, optionalField, repeatedField, one_def]

end FdcsTask

namespace TrackerStatus

theorem mul_def (m source : TrackerStatus U) : m * source = m.mergeFrom source := rfl

theorem one_def : (1 : TrackerStatus U) = {} := rfl

def trackerTypeField : Field limit (TrackerStatus lib.Unknown) :=
  enumField lib 3 (by decide) TrackerType.toInt TrackerType.ofInt TrackerType.ofInt_toInt
    (·.trackerType) (fun v m => { m with trackerType := some v })
    (fun u m => { m with unknownFields := m.unknownFields ++ [u] }) ({ trackerType := · })
    (fun v m => by simp [mul_def, mergeFrom]) rfl
    (fun u m => by simp [mul_def, one_def, mergeFrom])

def fields : List (Field limit (TrackerStatus lib.Unknown)) :=
  [optionalField 1 wiretypeLengthDelimited (by decide) lib.string (·.socketAddr)
      (fun v m => { m with socketAddr := some v }) ({ socketAddr := · })
      (fun v m => by simp [mul_def, mergeFrom]) rfl,
    optionalField 2 wiretypeVarint (by decide) lib.bool (·.active)
      (fun v m => { m with active := some v }) ({ active := · })
      (fun v m => by simp [mul_def, mergeFrom]) rfl,
    trackerTypeField lib,
    optionalField 4 wiretypeLengthDelimited (by decide) lib.string (·.startTime)
      (fun v m => { m with startTime := some v }) ({ startTime := · })
      (fun v m => by simp [mul_def, mergeFrom]) rfl,
    optionalField 5 wiretypeLengthDelimited (by decide) lib.string (·.runTime)
      (fun v m => { m with runTime := some v }) ({ runTime := · })
      (fun v m => by simp [mul_def, mergeFrom]) rfl,
    optionalField 6 wiretypeVarint (by decide) lib.int32 (·.processNum)
      (fun v m => { m with processNum := some v }) ({ processNum := · })
      (fun v m => by simp [mul_def, mergeFrom]) rfl,
    optionalField 7 wiretypeVarint (by decide) lib.int32 (·.freeDisk)
      (fun v m => { m with freeDisk := some v }) ({ freeDisk := · })
      (fun v m => by simp [mul_def, mergeFrom]) rfl,
    optionalField 8 wiretypeVarint (by decide) lib.int32 (·.totalDisk)
      (fun v m => { m with totalDisk := some v }) ({ totalDisk := · })
      (fun v m => by simp [mul_def, mergeFrom]) rfl,
    optionalField 9 wiretypeVarint (by decide) lib.int32 (·.freeMemory)
      (fun v m => { m with freeMemory := some v }) ({ freeMemory := · })
      (fun v m => by simp [mul_def, mergeFrom]) rfl,
    optionalField 10 wiretypeVarint (by decide) lib.int32 (·.totalMemory)
      (fun v m => { m with totalMemory := some v }) ({ totalMemory := · })
      (fun v m => by simp [mul_def, mergeFrom]) rfl]

theorem numbers_nodup : ((fields lib).map (·.number)).Nodup :=
  (by decide : ([1, 2, 3, 4, 5, 6, 7, 8, 9, 10] : List UInt32).Nodup)

theorem tags : (fields lib).map Field.tag = [10, 16, 24, 34, 42, 48, 56, 64, 72, 80] := by
  simp [fields, optionalField, enumField, trackerTypeField, Field.tag, makeTag]
  decide

theorem soundValues (m : TrackerStatus lib.Unknown) : SoundValues (fields lib) m := by
  simp [SoundValues, fields, optionalField, enumField, trackerTypeField, Scalar.sound]

theorem unrecognized_of_trackerTypeField (value : (trackerTypeField lib).Value) :
    ∀ u ∈ ((trackerTypeField lib).add value 1).unknownFields,
      Unrecognized lib.wire ({ unknownFields := [·] }) (fields lib) u := by
  apply unrecognized_of_enumField (numbers_nodup lib) ?_ unknownFields
  · intro e
    rfl
  · intro u
    rfl
  · intro u
    rfl
  · simp [fields, trackerTypeField]

theorem unknown_of_add {P : lib.Unknown → Prop}
    (htrackerType : ∀ v, ∀ u ∈ ((trackerTypeField lib).add v 1).unknownFields, P u) :
    ∀ f ∈ fields lib, ∀ v, ∀ u ∈ (f.add v 1).unknownFields, P u := by
  simp only [one_def] at htrackerType
  simpa [fields, optionalField, one_def] using htrackerType

def schema : Schema lib.wire (TrackerStatus lib.Unknown) where
  fields := fields lib
  unknowns := unknownFields
  unknownPart us := { unknownFields := us }
  isInitialized _ := true
  numbers_nodup := numbers_nodup lib
  length_writeTag := by
    apply lib.length_writeTags _ (tags lib)
    · simp [fields, optionalField, enumField, trackerTypeField]
    · simp
  unknownPart_nil := rfl
  unknownPart_cons _ _ := rfl
  assemble m := by
    simp [fields, optionalField, enumField, trackerTypeField, mul_def, one_def, mergeFrom]
  values_one := soundValues lib _
  values_mul _ _ := soundValues lib _
  values_unknownPart _ := soundValues lib _
  values_add _ _ _ _ := soundValues lib _
  unknowns_one := rfl
  unknowns_mul _ _ := rfl
  unknowns_unknownPart _ := rfl
  unrecognized_of_add := unknown_of_add lib (unrecognized_of_trackerTypeField lib)

end TrackerStatus

namespace TrackerProtocol

theorem mul_def (m source : TrackerProtocol U) : m * source = m.mergeFrom source := rfl

theorem one_def : (1 : TrackerProtocol U) = {} := rfl

def protocolTypeField : Field limit (TrackerProtocol lib.Unknown) :=
  enumField lib 3 (by decide) protocolTypeToInt protocolTypeOfInt protocolTypeOfInt_toInt
    (·.protocolType) (fun v m => { m with protocolType := some v })
    (fun u m => { m with unknownFields := m.unknownFields ++ [u] }) ({ protocolType := · })
    (fun v m => by simp [mul_def, mergeFrom]) rfl
    (fun u m => by simp [mul_def, one_def, mergeFrom])

def trackerTypeField : Field limit (TrackerProtocol lib.Unknown) :=
  enumField lib 4 (by decide) TrackerType.toInt TrackerType.ofInt TrackerType.ofInt_toInt
    (·.trackerType) (fun v m => { m with trackerType := some v })
    (fun u m => { m with unknownFields := m.unknownFields ++ [u] }) ({ trackerType := · })
    (fun v m => by simp [mul_def, mergeFrom]) rfl
    (fun u m => by simp [mul_def, one_def, mergeFrom])

def fields : List (Field limit (TrackerProtocol lib.Unknown)) :=
  [optionalField 1 wiretypeVarint (by decide) lib.int64 (·.id)
      (fun v m => { m with id := some v }) ({ id := · })
      (fun v m => by simp [mul_def, mergeFrom]) rfl,
    optionalField 2 wiretypeVarint (by decide) lib.int64 (·.time)
      (fun v m => { m with time := some v }) ({ time := · })
      (fun v m => by simp [mul_def, mergeFrom]) rfl,
    protocolTypeField lib,
    trackerTypeField lib,
    optionalField 5 wiretypeLengthDelimited (by decide) lib.string (·.requestSockAddr)
      (fun v m => { m with requestSockAddr := some v }) ({ requestSockAddr := · })
      (fun v m => by simp [mul_def, mergeFrom]) rfl,
    optionalField 6 wiretypeLengthDelimited (by decide) lib.string (·.requestArgs)
      (fun v m => { m with requestArgs := some v }) ({ requestArgs := · })
      (fun v m => by simp [mul_def, mergeFrom]) rfl,
    optionalField 7 wiretypeLengthDelimited (by decide) lib.string (·.responseSockAddr)
      (fun v m => { m with responseSockAddr := some v }) ({ responseSockAddr := · })
      (fun v m => by simp [mul_def, mergeFrom]) rfl,
    optionalField 8 wiretypeVarint (by decide) lib.int32 (·.forwardingSockFd)
      (fun v m => { m with forwardingSockFd := some v }) ({ forwardingSockFd := · })
      (fun v m => by simp [mul_def, mergeFrom]) rfl,
    optionalField 9 wiretypeLengthDelimited (by decide) lib.string (·.responseResult)
      (fun v m => { m with responseResult := some v }) ({ responseResult := · })
      (fun v m => by simp [mul_def, mergeFrom]) rfl,
    repeatedField 10 (by decide) ((TrackerStatus.schema lib).format lib.nested)
      (·.trackerStatus) (fun v m => { m with trackerStatus := m.trackerStatus ++ [v] })
      ({ trackerStatus := · }) (fun v m => by simp [mul_def, mergeFrom]) rfl (fun v vs => rfl),
    repeatedField 11 (by decide) ((KeyValuesPair.schema lib).format lib.nested)
      (·.keyValuesPairs) (fun v m => { m with keyValuesPairs := m.keyValuesPairs ++ [v] })
      ({ keyValuesPairs := · }) (fun v m => by simp [mul_def, mergeFrom]) rfl (fun v vs => rfl)]

theorem numbers_nodup : ((fields lib).map (·.number)).Nodup :=
  (by decide : ([1, 2, 3, 4, 5, 6, 7, 8, 9, 10, 11] : List UInt32).Nodup)

theorem tags : (fields lib).map Field.tag = [8, 16, 24, 32, 42, 50, 58, 64, 74, 82, 90] := by
  simp [fields, optionalField, enumField, repeatedField, protocolTypeField, trackerTypeField,
    Field.tag, makeTag]
  decide

theorem soundValues_iff (m : TrackerProtocol lib.Unknown) :
    SoundValues (fields lib) m ↔
      (∀ v ∈ m.trackerStatus, (TrackerStatus.schema lib).Sound v) ∧
        ∀ v ∈ m.keyValuesPairs, (KeyValuesPair.schema lib).Sound v := by
  simp [SoundValues, fields, optionalField, enumField, repeatedField, protocolTypeField,
    trackerTypeField, Scalar.sound, Schema.format]

theorem unrecognized_of_protocolTypeField (value : (protocolTypeField lib).Value) :
    ∀ u ∈ ((protocolTypeField lib).add value 1).unknownFields,
      Unrecognized lib.wire ({ unknownFields := [·] }) (fields lib) u := by
  apply unrecognized_of_enumField (numbers_nodup lib) ?_ unknownFields
  · intro e
    rfl
  · intro u
    rfl
  · intro u
    rfl
  · simp [fields, protocolTypeField]

theorem unrecognized_of_trackerTypeField (value : (trackerTypeField lib).Value) :
    ∀ u ∈ ((trackerTypeField lib).add value 1).unknownFields,
      Unrecognized lib.wire ({ unknownFields := [·] }) (fields lib) u := by
  apply unrecognized_of_enumField (numbers_nodup lib) ?_ unknownFields
  · intro e
    rfl
  · intro u
    rfl
  · intro u
    rfl
  · simp [fields, trackerTypeField]

theorem unknown_of_add {P : lib.Unknown → Prop}
    (hprotocolType : ∀ v, ∀ u ∈ ((protocolTypeField lib).add v 1).unknownFields, P u)
    (htrackerType : ∀ v, ∀ u ∈ ((trackerTypeField lib).add v 1).unknownFields, P u) :
    ∀ f ∈ fields lib, ∀ v, ∀ u ∈ (f.add v 1).unknownFields, P u := by
  simp only [one_def] at hprotocolType htrackerType
  simpa [fields, optionalField, repeatedField, one_def] using ⟨hprotocolType, htrackerType⟩

def schema : Schema lib.wire (TrackerProtocol lib.Unknown) where
  fields := fields lib
  unknowns := unknownFields
  unknownPart us := { unknownFields := us }
  isInitialized m := m.id.isSome
  numbers_nodup := numbers_nodup lib
  length_writeTag := by
    apply lib.length_writeTags _ (tags lib)
    · simp [fields, optionalField, enumField, repeatedField, protocolTypeField, trackerTypeField]
    · simp
  unknownPart_nil := rfl
  unknownPart_cons _ _ := rfl
  assemble m := by
    simp [fields, optionalField, enumField, repeatedField, protocolTypeField, trackerTypeField,
      mul_def, one_def, mergeFrom]
  values_one := by
    rw [soundValues_iff]
    simp [one_def]
  values_mul hm hd := by
    rw [soundValues_iff] at hm hd ⊢
    simp only [mul_def, mergeFrom, List.forall_mem_append]
    exact ⟨⟨hm.1, hd.1⟩, hm.2, hd.2⟩
  values_unknownPart us := by
    rw [soundValues_iff]
    simp
  values_add := by
    simp only [soundValues_iff]
    simp [fields, optionalField, enumField, repeatedField, protocolTypeField, trackerTypeField,
      one_def, Schema.format]
    constructor
    · intro value _
      cases protocolTypeOfInt value <;> simp
    · intro value _
      cases TrackerType.ofInt value <;> simp
  unknowns_one := rfl
  unknowns_mul _ _ := rfl
  unknowns_unknownPart _ := rfl
  unrecognized_of_add :=
    unknown_of_add lib (unrecognized_of_protocolTypeField lib)
      (unrecognized_of_trackerTypeField lib)

end TrackerProtocol

/-! Messages without unknown fields. -/

variable {lib}

theorem KeyValuePair.sound {m : KeyValuePair lib.Unknown} (h : m.unknownFields = []) :
    (KeyValuePair.schema lib).Sound m :=
  (schema lib).sound_of_known (soundValues lib m) h

theorem KeyValuesPair.sound {m : KeyValuesPair lib.Unknown} (h : m.unknownFields = []) :
    (KeyValuesPair.schema lib).Sound m :=
  (schema lib).sound_of_known (soundValues lib m) h

theorem FdcsTask.sound {m : FdcsTask lib.Unknown} (h : m.unknownFields = [])
    (hpairs : ∀ pairs ∈ m.keyValuesPairs, (KeyValuesPair.schema lib).Sound pairs) :
    (FdcsTask.schema lib).Sound m :=
  (schema lib).sound_of_known ((soundValues_iff lib m).mpr hpairs) h

theorem TrackerProtocol.sound {m : TrackerProtocol lib.Unknown} (h : m.unknownFields = [])
    (hstatus : ∀ status ∈ m.trackerStatus, (TrackerStatus.schema lib).Sound status)
    (hpairs : ∀ pairs ∈ m.keyValuesPairs, (KeyValuesPair.schema lib).Sound pairs) :
    (TrackerProtocol.schema lib).Sound m :=
  (schema lib).sound_of_known ((soundValues_iff lib m).mpr ⟨hstatus, hpairs⟩) h

end FastDCS.GeneratedMessages
