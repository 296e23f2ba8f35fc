import FastDCS.Messages
import FastDCS.TaggedMessages

/-!
`tracker_protocol.pb.cc`: the messages as the generated code reads, writes and merges them. What it
calls of the protobuf library is a parameter.
-/

namespace FastDCS.GeneratedMessages

open FastDCS.TaggedFields
open FastDCS.Messages (ProtocolType)

/-- The longest message; its sizes are kept in an `int`. -/
def limit : Nat := 2 ^ 31

def wiretypeVarint : UInt32 := 0
def wiretypeLengthDelimited : UInt32 := 2

abbrev ValidTag (number type : UInt32) : Prop :=
  makeTag number type ≠ 0 ∧ fieldNumber (makeTag number type) = number ∧
    wireType (makeTag number type) = type

/-- How values without conditions of their own are read and written. -/
structure Scalar (α : Type) extends Format limit α where
  sound : ∀ v, Sound v

/-- What the generated code uses of `CodedInputStream`, `CodedOutputStream`, `WireFormat` and
`WireFormatLite`. -/
structure Library where
  Unknown : Type
  wire : Wire limit Unknown
  /-- `ReadMessageNoVirtual`, `WriteMessageMaybeToArray` and `MessageSizeNoVirtual`. -/
  nested : Nested limit
  bytes : Scalar Bytes
  string : Scalar Bytes
  int64 : Scalar Int64
  int32 : Scalar Int32
  bool : Scalar Bool
  enum : Scalar Int32
  /-- `UnknownFieldSet::AddVarint`. -/
  addVarint : UInt32 → Int32 → Unknown
  unknownTag_addVarint : ∀ number value, ValidTag number wiretypeVarint →
    wire.unknownTag (addVarint number value) = makeTag number wiretypeVarint
  read_addVarint : ∀ number value rest,
    enum.read (wire.writeUnknown (addVarint number value) ++ rest) = .read value rest
  /-- The tags below 128 take one byte. -/
  length_writeTag : ∀ tag, 0 < tag → tag < 128 → (wire.writeTag tag).length = 1
  byteSize_bool : ∀ v, bool.byteSize v = 1
  length_le_bytes : ∀ v : Bytes, v.length ≤ bytes.byteSize v

theorem Library.length_writeTags (lib : Library) {M : Type} [Monoid M]
    {fields : List (Field limit M)} (tags : List UInt32)
    (htags : fields.map Field.tag = tags) (hsizes : ∀ f ∈ fields, f.tagSize = 1)
    (hsmall : ∀ tag ∈ tags, 0 < tag ∧ tag < 128) :
    ∀ f ∈ fields, (lib.wire.writeTag f.tag).length = f.tagSize := by
  intro f hf
  have htag := hsmall f.tag (htags ▸ List.mem_map_of_mem hf)
  rw [lib.length_writeTag f.tag htag.1 htag.2, hsizes f hf]

section
variable {M α : Type} [Monoid M]

/-- A field that is set at most once in a message; each value replaces the one before. -/
def optionalField (number type : UInt32) (htag : ValidTag number type) (format : Scalar α)
    (get : M → Option α) (set : α → M → M) (only : Option α → M)
    (hset : ∀ v m, set v m = m * only (some v)) (hnone : only none = 1) : Field limit M where
  number := number
  type := type
  repeated := false
  tagSize := 1
  Value := α
  format := format.toFormat
  get m := (get m).toList
  add := set
  part m := only (get m)
  tag_ne_zero := htag.1
  fieldNumber_makeTag := htag.2.1
  wireType_makeTag := htag.2.2
  add_eq v m := by rw [hset, hset v 1, one_mul]
  prod_add m := by
    cases get m with
    | none => exact hnone.symm
    | some v => simp [hset]

/-- An optional field whose values are checked; what does not pass is kept among the unknown
fields. -/
def enumField {E : Type} (lib : Library) (number : UInt32) (htag : ValidTag number wiretypeVarint)
    (toInt : E → Int32) (ofInt : Int32 → Option E) (hofInt : ∀ e, ofInt (toInt e) = some e)
    (get : M → Option E) (set : E → M → M) (addUnknown : lib.Unknown → M → M) (only : Option E → M)
    (hset : ∀ e m, set e m = m * only (some e)) (hnone : only none = 1)
    (hunknown : ∀ u m, addUnknown u m = m * addUnknown u 1) : Field limit M where
  number := number
  type := wiretypeVarint
  repeated := false
  tagSize := 1
  Value := Int32
  format := lib.enum.toFormat
  get m := (get m).toList.map toInt
  add value m :=
    match ofInt value with
    | some e => set e m
    | none => addUnknown (lib.addVarint number value) m
  part m := only (get m)
  tag_ne_zero := htag.1
  fieldNumber_makeTag := htag.2.1
  wireType_makeTag := htag.2.2
  add_eq value m := by
    cases ofInt value with
    | some e => exact (hset e m).trans (congrArg (m * ·) ((one_mul _).symm.trans (hset e 1).symm))
    | none => exact hunknown _ m
  prod_add m := by
    cases get m with
    | none => exact hnone.symm
    | some e => simp [hofInt, hset]

/-- A value that does not pass is unknown again when it is read a second time. -/
theorem unrecognized_of_enumField {E : Type} {lib : Library} {number : UInt32}
    {htag : ValidTag number wiretypeVarint} {toInt : E → Int32} {ofInt : Int32 → Option E}
    {hofInt : ∀ e, ofInt (toInt e) = some e} {get : M → Option E} {set : E → M → M}
    {addUnknown : lib.Unknown → M → M} {only : Option E → M}
    {hset : ∀ e m, set e m = m * only (some e)} {hnone : only none = 1}
    {hunknown : ∀ u m, addUnknown u m = m * addUnknown u 1} {fields : List (Field limit M)}
    (hnodup : (fields.map (·.number)).Nodup)
    (hmem : enumField lib number htag toInt ofInt hofInt get set addUnknown only hset hnone
      hunknown ∈ fields)
    (unknowns : M → List lib.Unknown) (unknown : lib.Unknown → M)
    (hquiet : ∀ e, unknowns (set e 1) = []) (hadded : ∀ u, unknowns (addUnknown u 1) = [u])
    (hsame : ∀ u, addUnknown u 1 = unknown u) (value : Int32) :
    ∀ u ∈ unknowns ((enumField lib number htag toInt ofInt hofInt get set addUnknown only hset hnone
      hunknown).add value 1), Unrecognized lib.wire unknown fields u := by
  intro u hu
  simp only [enumField] at hu
  cases hvalue : ofInt value with
  | some e =>
      simp only [hvalue, hquiet] at hu
      exact absurd hu List.not_mem_nil
  | none =>
      simp only [hvalue, hadded, List.mem_singleton] at hu
      obtain ⟨before, behind, hfields⟩ := List.append_of_mem hmem
      have hselect := select_tag hnodup hfields
      rw [hu, Unrecognized, lib.unknownTag_addVarint number value htag]
      rw [Field.tag] at hselect
      simp only [enumField] at hselect ⊢
      rw [hselect]
      refine ⟨value, ?_, lib.read_addVarint number value⟩
      simp only [hvalue, hsame]

def repeatedField (number : UInt32) (htag : ValidTag number wiretypeLengthDelimited)
    (format : Format limit α) (get : M → List α) (add : α → M → M) (only : List α → M)
    (hadd : ∀ v m, add v m = m * only [v]) (hnil : only [] = 1)
    (hcons : ∀ v vs, only (v :: vs) = only [v] * only vs) : Field limit M where
  number := number
  type := wiretypeLengthDelimited
  repeated := true
  tagSize := 1
  Value := α
  format := format
  get := get
  add := add
  part m := only (get m)
  tag_ne_zero := htag.1
  fieldNumber_makeTag := htag.2.1
  wireType_makeTag := htag.2.2
  add_eq v m := by rw [hadd, hadd v 1, one_mul]
  prod_add m := by
    induction get m with
    | nil => exact hnil.symm
    | cons v vs ih => rw [List.map_cons, List.prod_cons, ih, hcons, hadd v 1, one_mul]

end

inductive TrackerType where
  | unknownTracker
  | masterType
  | workerType
  | clientType
deriving DecidableEq

def TrackerType.toInt : TrackerType → Int32
  | .unknownTracker => 0
  | .masterType => 1
  | .workerType => 2
  | .clientType => 3

/-- `TrackerType_IsValid`, with the value that it stands for. -/
def TrackerType.ofInt (value : Int32) : Option TrackerType :=
  if value = 0 then some .unknownTracker
  else if value = 1 then some .masterType
  else if value = 2 then some .workerType
  else if value = 3 then some .clientType
  else none

def protocolTypes : List ProtocolType :=
  [.unknownProtocol, .election, .coordinator, .masterAskTracker, .masterReportStatus,
    .workerAskTracker, .workerReportStatus, .createJobId, .commitJob, .syncTaskDuplicate,
    .requestTaskDuplicate, .workerRequestTask, .taskCompleted, .askTaskStatus, .masterJoinGroup,
    .masterGroupChanged]

def protocolTypeToInt (type : ProtocolType) : Int32 := Int32.ofNat (protocolTypes.idxOf type)

/-- `ProtocolType_IsValid`, with the value that it stands for. -/
def protocolTypeOfInt (value : Int32) : Option ProtocolType :=
  if 0 ≤ value ∧ value ≤ 15 then protocolTypes[value.toNatClampNeg]? else none

theorem TrackerType.ofInt_toInt (type : TrackerType) : ofInt type.toInt = some type := by
  cases type <;> rfl

theorem protocolTypeOfInt_toInt (type : ProtocolType) :
    protocolTypeOfInt (protocolTypeToInt type) = some type := by
  cases type <;> decide

structure KeyValuePair (U : Type) where
  key : Option Bytes := none
  value : Option Bytes := none
  unknownFields : List U := []

structure KeyValuesPair (U : Type) where
  key : Option Bytes := none
  value : List Bytes := []
  unknownFields : List U := []

structure FdcsTask (U : Type) where
  taskId : Option Bytes := none
  leaseTime : Option Int64 := none
  keyValuesPairs : List (KeyValuesPair U) := []
  unknownFields : List U := []

structure TrackerStatus (U : Type) where
  socketAddr : Option Bytes := none
  active : Option Bool := none
  trackerType : Option TrackerType := none
  startTime : Option Bytes := none
  runTime : Option Bytes := none
  processNum : Option Int32 := none
  freeDisk : Option Int32 := none
  totalDisk : Option Int32 := none
  freeMemory : Option Int32 := none
  totalMemory : Option Int32 := none
  unknownFields : List U := []

structure TrackerProtocol (U : Type) where
  id : Option Int64 := none
  time : Option Int64 := none
  protocolType : Option ProtocolType := none
  trackerType : Option TrackerType := none
  requestSockAddr : Option Bytes := none
  requestArgs : Option Bytes := none
  responseSockAddr : Option Bytes := none
  forwardingSockFd : Option Int32 := none
  responseResult : Option Bytes := none
  trackerStatus : List (TrackerStatus U) := []
  keyValuesPairs : List (KeyValuesPair U) := []
  unknownFields : List U := []

variable {U : Type}

/-! `MergeFrom` of each message. -/

def KeyValuePair.mergeFrom (m source : KeyValuePair U) : KeyValuePair U where
  key := source.key.or m.key
  value := source.value.or m.value
  unknownFields := m.unknownFields ++ source.unknownFields

def KeyValuesPair.mergeFrom (m source : KeyValuesPair U) : KeyValuesPair U where
  value := m.value ++ source.value
  key := source.key.or m.key
  unknownFields := m.unknownFields ++ source.unknownFields

def FdcsTask.mergeFrom (m source : FdcsTask U) : FdcsTask U where
  keyValuesPairs := m.keyValuesPairs ++ source.keyValuesPairs
  taskId := source.taskId.or m.taskId
  leaseTime := source.leaseTime.or m.leaseTime
  unknownFields := m.unknownFields ++ source.unknownFields

def TrackerStatus.mergeFrom (m source : TrackerStatus U) : TrackerStatus U where
  socketAddr := source.socketAddr.or m.socketAddr
  active := source.active.or m.active
  trackerType := source.trackerType.or m.trackerType
  startTime := source.startTime.or m.startTime
  runTime := source.runTime.or m.runTime
  processNum := source.processNum.or m.processNum
  freeDisk := source.freeDisk.or m.freeDisk
  totalDisk := source.totalDisk.or m.totalDisk
  freeMemory := source.freeMemory.or m.freeMemory
  totalMemory := source.totalMemory.or m.totalMemory
  unknownFields := m.unknownFields ++ source.unknownFields

def TrackerProtocol.mergeFrom (m source : TrackerProtocol U) : TrackerProtocol U where
  trackerStatus := m.trackerStatus ++ source.trackerStatus
  keyValuesPairs := m.keyValuesPairs ++ source.keyValuesPairs
  id := source.id.or m.id
  time := source.time.or m.time
  protocolType := source.protocolType.or m.protocolType
  trackerType := source.trackerType.or m.trackerType
  requestSockAddr := source.requestSockAddr.or m.requestSockAddr
  requestArgs := source.requestArgs.or m.requestArgs
  responseSockAddr := source.responseSockAddr.or m.responseSockAddr
  forwardingSockFd := source.forwardingSockFd.or m.forwardingSockFd
  responseResult := source.responseResult.or m.responseResult
  unknownFields := m.unknownFields ++ source.unknownFields

instance : Monoid (KeyValuePair U) where
  mul := KeyValuePair.mergeFrom
  one := {}
  mul_assoc a b c := by
    show (a.mergeFrom b).mergeFrom c = a.mergeFrom (b.mergeFrom c)
    simp [KeyValuePair.mergeFrom, Option.or_assoc]
  one_mul m := by
    show KeyValuePair.mergeFrom {} m = m
    simp [KeyValuePair.mergeFrom]
  mul_one m := by
    show KeyValuePair.mergeFrom m {} = m
    simp [KeyValuePair.mergeFrom]

instance : Monoid (KeyValuesPair U) where
  mul := KeyValuesPair.mergeFrom
  one := {}
  mul_assoc a b c := by
    show (a.mergeFrom b).mergeFrom c = a.mergeFrom (b.mergeFrom c)
    simp [KeyValuesPair.mergeFrom, Option.or_assoc]
  one_mul m := by
    show KeyValuesPair.mergeFrom {} m = m
    simp [KeyValuesPair.mergeFrom]
  mul_one m := by
    show KeyValuesPair.mergeFrom m {} = m
    simp [KeyValuesPair.mergeFrom]

instance : Monoid (FdcsTask U) where
  mul := FdcsTask.mergeFrom
  one := {}
  mul_assoc a b c := by
    show (a.mergeFrom b).mergeFrom c = a.mergeFrom (b.mergeFrom c)
    simp [FdcsTask.mergeFrom, Option.or_assoc]
  one_mul m := by
    show FdcsTask.mergeFrom {} m = m
    simp [FdcsTask.mergeFrom]
  mul_one m := by
    show FdcsTask.mergeFrom m {} = m
    simp [FdcsTask.mergeFrom]

instance : Monoid (TrackerStatus U) where
  mul := TrackerStatus.mergeFrom
  one := {}
  mul_assoc a b c := by
    show (a.mergeFrom b).mergeFrom c = a.mergeFrom (b.mergeFrom c)
    simp [TrackerStatus.mergeFrom, Option.or_assoc]
  one_mul m := by
    show TrackerStatus.mergeFrom {} m = m
    simp [TrackerStatus.mergeFrom]
  mul_one m := by
    show TrackerStatus.mergeFrom m {} = m
    simp [TrackerStatus.mergeFrom]

instance : Monoid (TrackerProtocol U) where
  mul := TrackerProtocol.mergeFrom
  one := {}
  mul_assoc a b c := by
    show (a.mergeFrom b).mergeFrom c = a.mergeFrom (b.mergeFrom c)
    simp [TrackerProtocol.mergeFrom, Option.or_assoc]
  one_mul m := by
    show TrackerProtocol.mergeFrom {} m = m
    simp [TrackerProtocol.mergeFrom]
  mul_one m := by
    show TrackerProtocol.mergeFrom m {} = m
    simp [TrackerProtocol.mergeFrom]

end FastDCS.GeneratedMessages
