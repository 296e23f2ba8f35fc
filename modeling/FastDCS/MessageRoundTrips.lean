import FastDCS.MessageSchemas
import FastDCS.PlainWires

/-!
What holds of all messages of `tracker_protocol.pb.cc`.
-/

namespace FastDCS.GeneratedMessages

open FastDCS.Base128
open FastDCS.TaggedFields

section
variable {lib : Library} {M : Type} [Monoid M]

/-- What is written is read, and a buffer of the size of a message is filled by it. -/
structure RoundTrips (schema : Schema lib.wire M) : Prop where
  parse_serialize : ∀ {m}, schema.Sound m → schema.byteSize m < limit →
    schema.parse (schema.serialize m) = (schema.isInitialized m, m)
  serializeToArray_eq : ∀ {m buffer}, buffer.length = schema.byteSize m →
    schema.serializeToArray buffer m = (true, schema.serialize m)

theorem roundTrips (schema : Schema lib.wire M) : RoundTrips schema where
  parse_serialize := schema.parse_serialize
  serializeToArray_eq := schema.serializeToArray_eq

/-- What is accepted is read again as it was after it has been written, also where parts of it are
not known. -/
def Forwards (schema : Schema lib.wire M) : Prop :=
  ∀ {s m}, schema.parse s = (true, m) → schema.byteSize m < limit →
    schema.parse (schema.serialize m) = (true, m)

theorem isInitialized_of_parse {schema : Schema lib.wire M} {s : Bytes} {m : M}
    (h : schema.parse s = (true, m)) : schema.isInitialized m = true := by
  unfold Schema.parse at h
  cases hout : schema.mergeFrom 1 s with
  | failed m' => simp [hout] at h
  | merged m' rest ended =>
      simp only [hout, Prod.mk.injEq, Bool.and_eq_true] at h
      rw [← h.2]
      exact h.1.2

theorem forwards (schema : Schema lib.wire M) : Forwards schema := by
  intro s m h hsize
  rw [schema.parse_serialize (schema.sound_of_parse h) hsize, isInitialized_of_parse h]

/-- The bytes of two messages one behind the other are merged as the messages are. -/
def Concatenates (schema : Schema lib.wire M) (mergeFrom : M → M → M) : Prop :=
  ∀ {a b m n}, schema.parse a = (true, m) → schema.parse b = (true, n) →
    schema.parse (a ++ b) = (true, mergeFrom m n)

theorem concatenates (schema : Schema lib.wire M)
    (hinitialized : ∀ m n, schema.isInitialized m = true → schema.isInitialized n = true →
      schema.isInitialized (m * n) = true) : Concatenates schema (· * ·) := by
  intro a b m n ha hb
  rw [schema.parse_append ha hb,
    hinitialized m n (isInitialized_of_parse ha) (isInitialized_of_parse hb)]

/-- The jumps from one field to the next change nothing. -/
def Direct (schema : Schema lib.wire M) : Prop :=
  ∀ m s, schema.mergeFrom m s = mergeByTags lib.wire schema.unknown schema.fields m s

end

theorem messages_roundTrip (lib : Library) :
    RoundTrips (KeyValuePair.schema lib) ∧ RoundTrips (KeyValuesPair.schema lib) ∧
      RoundTrips (FdcsTask.schema lib) ∧ RoundTrips (TrackerStatus.schema lib) ∧
        RoundTrips (TrackerProtocol.schema lib) :=
  ⟨roundTrips _, roundTrips _, roundTrips _, roundTrips _, roundTrips _⟩

theorem messages_forward (lib : Library) :
    Forwards (KeyValuePair.schema lib) ∧ Forwards (KeyValuesPair.schema lib) ∧
      Forwards (FdcsTask.schema lib) ∧ Forwards (TrackerStatus.schema lib) ∧
        Forwards (TrackerProtocol.schema lib) :=
  ⟨forwards _, forwards _, forwards _, forwards _, forwards _⟩

theorem messages_concatenate (lib : Library) :
    Concatenates (KeyValuePair.schema lib) KeyValuePair.mergeFrom ∧
      Concatenates (KeyValuesPair.schema lib) KeyValuesPair.mergeFrom ∧
        Concatenates (FdcsTask.schema lib) FdcsTask.mergeFrom ∧
          Concatenates (TrackerStatus.schema lib) TrackerStatus.mergeFrom ∧
            Concatenates (TrackerProtocol.schema lib) TrackerProtocol.mergeFrom := by
  refine ⟨concatenates _ fun _ _ _ _ => rfl, concatenates _ fun _ _ _ _ => rfl,
    concatenates _ fun m n hm _ => ?_, concatenates _ fun _ _ _ _ => rfl,
    concatenates _ fun m n hm _ => ?_⟩
  · show (n.taskId.or m.taskId).isSome = true
    rw [Option.isSome_or]
    exact (Bool.or_eq_true _ _).mpr (Or.inr hm)
  · show (n.id.or m.id).isSome = true
    rw [Option.isSome_or]
    exact (Bool.or_eq_true _ _).mpr (Or.inr hm)

theorem messages_direct (lib : Library) :
    Direct (KeyValuePair.schema lib) ∧ Direct (KeyValuesPair.schema lib) ∧
      Direct (FdcsTask.schema lib) ∧ Direct (TrackerStatus.schema lib) ∧
        Direct (TrackerProtocol.schema lib) :=
  ⟨fun _ _ => Schema.mergeFrom_eq _, fun _ _ => Schema.mergeFrom_eq _,
    fun _ _ => Schema.mergeFrom_eq _, fun _ _ => Schema.mergeFrom_eq _,
    fun _ _ => Schema.mergeFrom_eq _⟩

/-- A status of a type of tracker that the program does not know. -/
def newerStatus : TrackerStatus PlainWires.library.Unknown where
  active := some true
  unknownFields := [PlainWires.library.addVarint 3 9]

theorem sound_newerStatus : (TrackerStatus.schema PlainWires.library).Sound newerStatus where
  values := TrackerStatus.soundValues PlainWires.library newerStatus
  unknowns := TrackerStatus.unrecognized_of_trackerTypeField PlainWires.library (9 : Int32)

theorem byteSize_newerStatus :
    (TrackerStatus.schema PlainWires.library).byteSize newerStatus < limit := by
  have hsize : (TrackerStatus.schema PlainWires.library).byteSize newerStatus =
      0 + ((1 + (encode 1).length) + (0 + (0 + (0 + (0 + (0 + (0 + (0 + 0)))))))) +
        ((encode 24).length + (encode 9).length) := rfl
  rw [hsize, encode_of_lt (by decide), encode_of_lt (by decide), encode_of_lt (by decide)]
  decide

theorem newerStatus_roundTrips :
    (TrackerStatus.schema PlainWires.library).parse
        ((TrackerStatus.schema PlainWires.library).serialize newerStatus) = (true, newerStatus) :=
  (messages_roundTrip PlainWires.library).2.2.2.1.parse_serialize sound_newerStatus
    byteSize_newerStatus

theorem newerStatus_forwards :
    (TrackerStatus.schema PlainWires.library).parse
        ((TrackerStatus.schema PlainWires.library).serialize newerStatus) = (true, newerStatus) :=
  (messages_forward PlainWires.library).2.2.2.1
    ((TrackerStatus.schema PlainWires.library).parse_serialize sound_newerStatus
      byteSize_newerStatus) byteSize_newerStatus

theorem newerStatus_concatenates :
    (TrackerStatus.schema PlainWires.library).parse
        ((TrackerStatus.schema PlainWires.library).serialize newerStatus ++
          (TrackerStatus.schema PlainWires.library).serialize newerStatus) =
      (true, newerStatus.mergeFrom newerStatus) := by
  have hparse := (TrackerStatus.schema PlainWires.library).parse_serialize sound_newerStatus
    byteSize_newerStatus
  exact (messages_concatenate PlainWires.library).2.2.2.1 hparse hparse

end FastDCS.GeneratedMessages
