import FastDCS.Md5
import FastDCS.MessageRoundTrips

/-!
The records of `protofile.cc`, as the generated code reads and writes them, and what the messages
of the other modules stand for in it.
-/

namespace FastDCS.ProtoRecords

open FastDCS.Base128 (encode encode_of_lt)
open FastDCS.Strings
open FastDCS.TaggedFields
open FastDCS.GeneratedMessages
open FastDCS.Md5 (bytesOf)

variable {lib : Library} {M : Type} [Monoid M] (schema : Schema lib.wire M)

/-- `ParseValue`. It does not look whether the value is complete. -/
def parseValue (msgBytes : Bytes) : M := (schema.parse msgBytes).2

/-- `ReadRecord`. -/
def readRecord (pairs : KeyValuesPair lib.Unknown) (values : List M) : List M :=
  pairs.value.foldl (fun values valueBytes => values ++ [parseValue schema valueBytes]) values

/-- `SerializeValue`, where `malloc` returns memory with anything in it. -/
def serializeValue (malloc : (size : Nat) → { buffer : Bytes // buffer.length = size })
    (pairs : KeyValuesPair lib.Unknown) (msg : M) : KeyValuesPair lib.Unknown :=
  let msgSize := schema.byteSize msg
  let msgBuffer := (schema.serializeToArray (malloc msgSize).1 msg).2
  { pairs with value := pairs.value ++ [msgBuffer.take msgSize] }

/-- `WriteRecord`. -/
def writeRecord (malloc : (size : Nat) → { buffer : Bytes // buffer.length = size })
    (pairs : KeyValuesPair lib.Unknown) (msg : M) : KeyValuesPair lib.Unknown :=
  serializeValue schema malloc pairs msg

/-- The string of some bytes. -/
def strOf (bytes : Bytes) : Str := bytes.map fun byte => Char.ofNat byte.toNat

/-- `ReadRecord` into a map, which keeps the first value of a key. -/
def readKeyValues (pairs : KeyValuesPair lib.Unknown) (keyValues : OrderedMap Str Str) :
    OrderedMap Str Str :=
  pairs.value.foldl
    (fun keyValues valueBytes =>
      let value := parseValue (KeyValuePair.schema lib) valueBytes
      keyValues.insert (strOf (value.key.getD [])) (strOf (value.value.getD []))) keyValues

variable {schema} {malloc : (size : Nat) → { buffer : Bytes // buffer.length = size }}
  {pairs : KeyValuesPair lib.Unknown}

/-- Nothing that the memory held before gets into a record. -/
theorem writeRecord_eq (msg : M) :
    writeRecord schema malloc pairs msg =
      { pairs with value := pairs.value ++ [schema.serialize msg] } := by
  have hfill := schema.serializeToArray_eq (malloc (schema.byteSize msg)).2
  have htake : (schema.serialize msg).take (schema.byteSize msg) = schema.serialize msg := by
    rw [← schema.length_serialize, List.take_length]
  rw [writeRecord, serializeValue]
  simp only [hfill, htake]

theorem value_writeRecords (values : List M) :
    values.foldl (writeRecord schema malloc) pairs =
      { pairs with value := pairs.value ++ values.map schema.serialize } := by
  induction values generalizing pairs with
  | nil => simp
  | cons msg values ih =>
      rw [List.foldl_cons, ih, writeRecord_eq]
      simp

theorem readRecord_eq (pairs : KeyValuesPair lib.Unknown) (values : List M) :
    readRecord schema pairs values = values ++ pairs.value.map (parseValue schema) := by
  unfold readRecord
  induction pairs.value generalizing values with
  | nil => simp
  | cons valueBytes rest ih =>
      rw [List.foldl_cons, ih]
      simp

/-- A record is read as the values that were written into it. -/
theorem readRecord_writeRecords {values : List M} (key : Bytes)
    (hsound : ∀ msg ∈ values, schema.Sound msg ∧ schema.byteSize msg < limit) :
    readRecord schema (values.foldl (writeRecord schema malloc) { key := some key }) [] =
      values := by
  rw [readRecord_eq, value_writeRecords, List.nil_append, List.nil_append, List.map_map]
  conv_rhs => rw [← List.map_id values]
  apply List.map_congr_left
  intro msg hmsg
  obtain ⟨hmsgSound, hsize⟩ := hsound msg hmsg
  show parseValue schema (schema.serialize msg) = msg
  rw [parseValue, schema.parse_serialize hmsgSound hsize]

theorem byteSize_le_of_mem_values {pairs : KeyValuesPair lib.Unknown} {value : Bytes}
    (h : value ∈ pairs.value) : value.length ≤ (KeyValuesPair.schema lib).byteSize pairs := by
  have hfield : ∃ f ∈ (KeyValuesPair.schema lib).fields, ∃ v ∈ f.get pairs,
      value.length ≤ f.format.byteSize v := by
    refine ⟨_, List.mem_cons_of_mem _ List.mem_cons_self, value, h, lib.length_le_bytes value⟩
  obtain ⟨f, hf, v, hv, hle⟩ := hfield
  exact hle.trans ((KeyValuesPair.schema lib).byteSize_value_le hf hv)

theorem byteSize_le_of_mem_pairs {proto : TrackerProtocol lib.Unknown}
    {pairs : KeyValuesPair lib.Unknown} (h : pairs ∈ proto.keyValuesPairs) :
    (KeyValuesPair.schema lib).byteSize pairs ≤ (TrackerProtocol.schema lib).byteSize proto := by
  have hfield : ∃ f ∈ (TrackerProtocol.schema lib).fields, ∃ v ∈ f.get proto,
      (KeyValuesPair.schema lib).byteSize pairs ≤ f.format.byteSize v := by
    refine ⟨_, List.mem_of_getElem? (i := 10) rfl, pairs, h, Nat.le_add_left _ _⟩
  obtain ⟨f, hf, v, hv, hle⟩ := hfield
  exact hle.trans ((TrackerProtocol.schema lib).byteSize_value_le hf hv)

/-- A message with some values under a key, as the requests and the reports are put together. -/
def withRecords (schema : Schema lib.wire M)
    (malloc : (size : Nat) → { buffer : Bytes // buffer.length = size })
    (proto : TrackerProtocol lib.Unknown) (key : Bytes) (values : List M) :
    TrackerProtocol lib.Unknown :=
  { proto with
    keyValuesPairs := proto.keyValuesPairs ++
      [values.foldl (writeRecord schema malloc) { key := some key }] }

/-- Values that are put into a message arrive with it. -/
theorem records_exchanged {proto : TrackerProtocol lib.Unknown} (key : Bytes) {values : List M}
    (hproto : (TrackerProtocol.schema lib).Sound proto) (hid : proto.id.isSome = true)
    (hvalues : ∀ msg ∈ values, schema.Sound msg)
    (hsize : (TrackerProtocol.schema lib).byteSize (withRecords schema malloc proto key values) <
      limit) :
    ∃ received, (TrackerProtocol.schema lib).parse
        ((TrackerProtocol.schema lib).serialize (withRecords schema malloc proto key values)) =
          (true, received) ∧
      received.keyValuesPairs.getLast?.map (readRecord schema · []) = some values := by
  have hrecords : (values.foldl (writeRecord schema malloc) { key := some key } :
      KeyValuesPair lib.Unknown) = { key := some key, value := values.map schema.serialize } := by
    rw [value_writeRecords, List.nil_append]
  have hadded : (KeyValuesPair.schema lib).Sound
      (values.foldl (writeRecord schema malloc) { key := some key }) := by
    rw [hrecords]
    exact KeyValuesPair.sound rfl
  have hsound : (TrackerProtocol.schema lib).Sound
      (withRecords schema malloc proto key values) := by
    obtain ⟨hstatus, hpairs⟩ := (TrackerProtocol.soundValues_iff lib proto).mp hproto.values
    refine ⟨(TrackerProtocol.soundValues_iff lib _).mpr ⟨hstatus, ?_⟩, hproto.unknowns⟩
    intro pairs hmem
    rcases List.mem_append.mp hmem with hmem | hmem
    · exact hpairs pairs hmem
    · rw [List.mem_singleton.mp hmem]
      exact hadded
  have hsmall : ∀ msg ∈ values, schema.byteSize msg < limit := by
    intro msg hmsg
    have hmem : schema.serialize msg ∈ (values.foldl (writeRecord schema malloc)
        { key := some key } : KeyValuesPair lib.Unknown).value := by
      rw [hrecords]
      exact List.mem_map_of_mem hmsg
    have hvalue := byteSize_le_of_mem_values hmem
    have hpairs : (KeyValuesPair.schema lib).byteSize
        (values.foldl (writeRecord schema malloc) { key := some key }) ≤
          (TrackerProtocol.schema lib).byteSize (withRecords schema malloc proto key values) :=
      byteSize_le_of_mem_pairs (List.mem_append_right _ List.mem_cons_self)
    rw [schema.length_serialize] at hvalue
    exact (hvalue.trans hpairs).trans_lt hsize
  refine ⟨withRecords schema malloc proto key values, ?_, ?_⟩
  · rw [(TrackerProtocol.schema lib).parse_serialize hsound hsize]
    exact congrArg (·, _) hid
  · rw [withRecords, List.getLast?_append_of_ne_nil _ (List.cons_ne_nil _ _),
      List.getLast?_singleton, Option.map_some,
      readRecord_writeRecords key fun msg hmsg => ⟨hvalues msg hmsg, hsmall msg hmsg⟩]

/-- A task with a name of one byte. -/
def shortTask : FdcsTask PlainWires.library.Unknown := { taskId := some [116] }

/-- Memory that was used before. -/
def usedMemory (size : Nat) : { buffer : Bytes // buffer.length = size } :=
  ⟨List.replicate size 170, List.length_replicate⟩

theorem byteSize_shortTask :
    (TrackerProtocol.schema PlainWires.library).byteSize
      (withRecords (FdcsTask.schema PlainWires.library) usedMemory { id := some 1 } []
        [shortTask]) < limit := by
  have htask : (FdcsTask.schema PlainWires.library).byteSize shortTask =
      1 + ((encode 1).length + 1) := rfl
  have hpairs (value : Bytes) : (KeyValuesPair.schema PlainWires.library).byteSize
      { key := some [], value := [value] } =
        1 + ((encode 0).length + 0) + (1 + ((encode value.length).length + value.length)) := rfl
  have hproto (pairs : KeyValuesPair PlainWires.library.Unknown) :
      (TrackerProtocol.schema PlainWires.library).byteSize
        { id := some 1, keyValuesPairs := [pairs] } =
          1 + (encode 1).length + (0 + (0 + (0 + (0 + (0 + (0 + (0 + (0 + (0 +
            (1 + ((encode ((KeyValuesPair.schema PlainWires.library).byteSize pairs)).length +
              (KeyValuesPair.schema PlainWires.library).byteSize pairs))))))))))) := rfl
  rw [withRecords, value_writeRecords]
  show (TrackerProtocol.schema PlainWires.library).byteSize
    { id := some 1, keyValuesPairs := [{ key := some [], value :=
      [(FdcsTask.schema PlainWires.library).serialize shortTask] }] } < limit
  rw [hproto, hpairs, Schema.length_serialize, htask, encode_of_lt (by decide : 1 < 128),
    encode_of_lt (by decide : 0 < 128)]
  simp only [List.length_singleton, Nat.reduceAdd]
  rw [encode_of_lt (by decide : 3 < 128)]
  simp only [List.length_singleton, Nat.reduceAdd]
  rw [encode_of_lt (by decide : 7 < 128)]
  decide

theorem records_exchanged_shortTask :
    ∃ received, (TrackerProtocol.schema PlainWires.library).parse
        ((TrackerProtocol.schema PlainWires.library).serialize
          (withRecords (FdcsTask.schema PlainWires.library) usedMemory { id := some 1 } []
            [shortTask])) = (true, received) ∧
      received.keyValuesPairs.getLast?.map (readRecord (FdcsTask.schema PlainWires.library) · []) =
        some [shortTask] := by
  apply records_exchanged [] _ rfl _ byteSize_shortTask
  · exact TrackerProtocol.sound rfl (List.forall_mem_nil _) (List.forall_mem_nil _)
  · intro msg hmsg
    rw [List.mem_singleton.mp hmsg]
    exact FdcsTask.sound rfl (List.forall_mem_nil _)

/-- A string of bytes. -/
def OfBytes (s : Str) : Prop := ∀ c ∈ s, c.toNat < 256

theorem strOf_bytesOf {s : Str} (hs : OfBytes s) : strOf (bytesOf s) = s := by
  rw [strOf, bytesOf, List.map_map]
  conv_rhs => rw [← List.map_id s]
  apply List.map_congr_left
  intro c hc
  show Char.ofNat (UInt8.ofNat c.toNat).toNat = c
  rw [UInt8.toNat_ofNat', Nat.mod_eq_of_lt (hs c hc), Char.ofNat_toNat]

/-! The messages of the model as the generated code holds them. -/

section
variable {U : Type}

def ofPair (pair : Messages.KeyValuePair) : KeyValuePair U where
  key := some (bytesOf pair.key)
  value := some (bytesOf pair.value)

def toPair (pair : KeyValuePair U) : Messages.KeyValuePair where
  key := strOf (pair.key.getD [])
  value := strOf (pair.value.getD [])

def ofPairs (pairs : Messages.KeyValuesPair) : KeyValuesPair U where
  key := some (bytesOf pairs.key)
  value := pairs.value.map bytesOf

def toPairs (pairs : KeyValuesPair U) : Messages.KeyValuesPair where
  key := strOf (pairs.key.getD [])
  value := pairs.value.map strOf

def ofTask (task : Messages.FdcsTask) : FdcsTask U where
  taskId := some (bytesOf task.taskId)
  leaseTime := task.leaseTime.map Int64.ofInt
  keyValuesPairs := task.keyValuesPairs.map ofPairs

def toTask (task : FdcsTask U) : Messages.FdcsTask where
  taskId := strOf (task.taskId.getD [])
  leaseTime := task.leaseTime.map Int64.toInt
  keyValuesPairs := task.keyValuesPairs.map toPairs

/-- A message with every field set that a node reads. -/
def ofProtocol (id time : Int64) (proto : Messages.TrackerProtocol) : TrackerProtocol U where
  id := some id
  time := some time
  protocolType := some proto.protocolType
  requestSockAddr := some (bytesOf proto.requestSockAddr)
  requestArgs := some (bytesOf proto.requestArgs)
  responseSockAddr := some (bytesOf proto.responseSockAddr)
  forwardingSockFd := some (Int32.ofInt proto.forwardingSockFd)
  responseResult := some (bytesOf proto.responseResult)
  keyValuesPairs := proto.keyValuesPairs.map ofPairs

/-- The fields with the defaults that their getters return. -/
def toProtocol (proto : TrackerProtocol U) : Messages.TrackerProtocol where
  protocolType := proto.protocolType.getD .unknownProtocol
  requestSockAddr := strOf (proto.requestSockAddr.getD [])
  requestArgs := strOf (proto.requestArgs.getD [])
  responseSockAddr := strOf (proto.responseSockAddr.getD [])
  forwardingSockFd := (proto.forwardingSockFd.getD (-1)).toInt
  responseResult := strOf (proto.responseResult.getD [])
  keyValuesPairs := proto.keyValuesPairs.map toPairs

end

def PairOfBytes (pair : Messages.KeyValuePair) : Prop := OfBytes pair.key ∧ OfBytes pair.value

def PairsOfBytes (pairs : Messages.KeyValuesPair) : Prop :=
  OfBytes pairs.key ∧ ∀ value ∈ pairs.value, OfBytes value

/-- A task that fits the types of its fields. -/
structure TaskFits (task : Messages.FdcsTask) : Prop where
  taskId : OfBytes task.taskId
  leaseTime : ∀ time, task.leaseTime = some time → -2 ^ 63 ≤ time ∧ time < 2 ^ 63
  keyValuesPairs : ∀ pairs ∈ task.keyValuesPairs, PairsOfBytes pairs

structure ProtocolFits (proto : Messages.TrackerProtocol) : Prop where
  requestSockAddr : OfBytes proto.requestSockAddr
  requestArgs : OfBytes proto.requestArgs
  responseSockAddr : OfBytes proto.responseSockAddr
  forwardingSockFd : -2 ^ 31 ≤ proto.forwardingSockFd ∧ proto.forwardingSockFd < 2 ^ 31
  responseResult : OfBytes proto.responseResult
  keyValuesPairs : ∀ pairs ∈ proto.keyValuesPairs, PairsOfBytes pairs

theorem map_eq_self {α : Type} {f : α → α} {xs : List α} (h : ∀ x ∈ xs, f x = x) :
    xs.map f = xs := by
  conv_rhs => rw [← List.map_id xs]
  exact List.map_congr_left h

section
variable {U : Type}

theorem toPair_ofPair {pair : Messages.KeyValuePair} (h : PairOfBytes pair) :
    toPair (ofPair pair : KeyValuePair U) = pair := by
  show Messages.KeyValuePair.mk (strOf (bytesOf pair.key)) (strOf (bytesOf pair.value)) = pair
  rw [strOf_bytesOf h.1, strOf_bytesOf h.2]

theorem toPairs_ofPairs {pairs : Messages.KeyValuesPair} (h : PairsOfBytes pairs) :
    toPairs (ofPairs pairs : KeyValuesPair U) = pairs := by
  have hvalue : (pairs.value.map bytesOf).map strOf = pairs.value := by
    rw [List.map_map]
    exact map_eq_self fun value hmem => strOf_bytesOf (h.2 value hmem)
  show Messages.KeyValuesPair.mk (strOf (bytesOf pairs.key)) _ = pairs
  rw [strOf_bytesOf h.1]
  exact congrArg (Messages.KeyValuesPair.mk pairs.key) hvalue

theorem map_toPairs_ofPairs {list : List Messages.KeyValuesPair}
    (h : ∀ pairs ∈ list, PairsOfBytes pairs) :
    (list.map (ofPairs (U := U))).map toPairs = list := by
  rw [List.map_map]
  exact map_eq_self fun pairs hmem => toPairs_ofPairs (h pairs hmem)

theorem toTask_ofTask {task : Messages.FdcsTask} (h : TaskFits task) :
    toTask (ofTask task : FdcsTask U) = task := by
  have hlease : (task.leaseTime.map Int64.ofInt).map Int64.toInt = task.leaseTime := by
    cases htime : task.leaseTime with
    | none => rfl
    | some time =>
        obtain ⟨hlow, hhigh⟩ := h.leaseTime time htime
        rw [Option.map_some, Option.map_some, Int64.toInt_ofInt_of_le hlow hhigh]
  show Messages.FdcsTask.mk (strOf (bytesOf task.taskId)) _ _ = task
  rw [strOf_bytesOf h.taskId]
  show Messages.FdcsTask.mk task.taskId ((task.leaseTime.map Int64.ofInt).map Int64.toInt)
    ((task.keyValuesPairs.map ofPairs).map toPairs) = task
  rw [hlease, map_toPairs_ofPairs h.keyValuesPairs]

theorem toProtocol_ofProtocol {proto : Messages.TrackerProtocol} (h : ProtocolFits proto)
    (id time : Int64) : toProtocol (ofProtocol id time proto : TrackerProtocol U) = proto := by
  have hpairs := map_toPairs_ofPairs (U := U) h.keyValuesPairs
  have hfd : (Int32.ofInt proto.forwardingSockFd).toInt = proto.forwardingSockFd :=
    Int32.toInt_ofInt_of_le h.forwardingSockFd.1 h.forwardingSockFd.2
  simp only [toProtocol, ofProtocol, Option.getD_some, hpairs, hfd, strOf_bytesOf h.requestSockAddr,
    strOf_bytesOf h.requestArgs, strOf_bytesOf h.responseSockAddr, strOf_bytesOf h.responseResult]

end

/-- The messages of the model arrive as they were sent, if they fit the types that the generated
code has for them. -/
structure Carries (lib : Library) : Prop where
  pair : ∀ {pair}, PairOfBytes pair → (KeyValuePair.schema lib).byteSize (ofPair pair) < limit →
    toPair (parseValue (KeyValuePair.schema lib)
      ((KeyValuePair.schema lib).serialize (ofPair pair))) = pair
  task : ∀ {task}, TaskFits task → (FdcsTask.schema lib).byteSize (ofTask task) < limit →
    toTask (parseValue (FdcsTask.schema lib) ((FdcsTask.schema lib).serialize (ofTask task))) = task
  protocol : ∀ {proto id time}, ProtocolFits proto →
    (TrackerProtocol.schema lib).byteSize (ofProtocol id time proto) < limit →
      ∃ received, (TrackerProtocol.schema lib).parse
        ((TrackerProtocol.schema lib).serialize (ofProtocol id time proto)) = (true, received) ∧
          toProtocol received = proto
  keyValues : ∀ {malloc key keyValues} {list : List Messages.KeyValuePair},
    (∀ pair ∈ list, PairOfBytes pair ∧
      (KeyValuePair.schema lib).byteSize (ofPair pair) < limit) →
    readKeyValues ((list.map ofPair).foldl (writeRecord (KeyValuePair.schema lib) malloc)
        { key := some key }) keyValues =
      list.foldl (fun keyValues pair => keyValues.insert pair.key pair.value) keyValues

theorem sound_ofPairs {list : List Messages.KeyValuesPair} :
    ∀ pairs ∈ list.map (ofPairs (U := lib.Unknown)), (KeyValuesPair.schema lib).Sound pairs := by
  intro pairs hmem
  obtain ⟨model, -, rfl⟩ := List.mem_map.mp hmem
  exact KeyValuesPair.sound rfl

theorem readKeyValues_writeRecords {key : Bytes} {keyValues : OrderedMap Str Str}
    {list : List Messages.KeyValuePair}
    (hlist : ∀ pair ∈ list, PairOfBytes pair ∧
      (KeyValuePair.schema lib).byteSize (ofPair pair) < limit) :
    readKeyValues ((list.map ofPair).foldl (writeRecord (KeyValuePair.schema lib) malloc)
        { key := some key }) keyValues =
      list.foldl (fun keyValues pair => keyValues.insert pair.key pair.value) keyValues := by
  rw [value_writeRecords, readKeyValues, List.nil_append, List.map_map, List.foldl_map]
  apply List.foldl_ext
  intro keyValues pair hmem
  obtain ⟨hfits, hsize⟩ := hlist pair hmem
  have hparse : parseValue (KeyValuePair.schema lib)
      ((KeyValuePair.schema lib).serialize (ofPair pair)) = ofPair pair := by
    rw [parseValue, (KeyValuePair.schema lib).parse_serialize (KeyValuePair.sound rfl) hsize]
  simp only [Function.comp_apply, hparse]
  exact congrArg₂ keyValues.insert (strOf_bytesOf hfits.1) (strOf_bytesOf hfits.2)

theorem messages_carried (lib : Library) : Carries lib where
  pair hfits hsize := by
    rw [parseValue, (KeyValuePair.schema lib).parse_serialize (KeyValuePair.sound rfl) hsize]
    exact toPair_ofPair hfits
  task hfits hsize := by
    rw [parseValue,
      (FdcsTask.schema lib).parse_serialize (FdcsTask.sound rfl sound_ofPairs) hsize]
    exact toTask_ofTask hfits
  protocol {proto id time} hfits hsize := by
    refine ⟨ofProtocol id time proto, ?_, toProtocol_ofProtocol hfits id time⟩
    exact (TrackerProtocol.schema lib).parse_serialize
      (TrackerProtocol.sound rfl (List.forall_mem_nil _) sound_ofPairs) hsize
  keyValues := readKeyValues_writeRecords

/-- A pair of one letter and the empty string. -/
def shortPair : Messages.KeyValuePair where
  key := ['k']
  value := []

theorem pairOfBytes_shortPair : PairOfBytes shortPair := by
  constructor
  · intro c hc
    rw [List.mem_singleton.mp hc]
    decide
  · exact List.forall_mem_nil _

theorem byteSize_shortPair :
    (KeyValuePair.schema PlainWires.library).byteSize (ofPair shortPair) < limit := by
  have hsize : (KeyValuePair.schema PlainWires.library).byteSize (ofPair shortPair) =
      1 + ((encode 1).length + 1) + (1 + ((encode 0).length + 0)) := rfl
  rw [hsize, encode_of_lt (by decide), encode_of_lt (by decide)]
  decide

theorem messages_carried_shortPair :
    toPair (parseValue (KeyValuePair.schema PlainWires.library)
      ((KeyValuePair.schema PlainWires.library).serialize (ofPair shortPair))) = shortPair :=
  (messages_carried PlainWires.library).pair pairOfBytes_shortPair byteSize_shortPair

end FastDCS.ProtoRecords
