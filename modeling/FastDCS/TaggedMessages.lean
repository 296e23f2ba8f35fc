import Mathlib.Algebra.Order.BigOperators.Group.List
import Mathlib.Algebra.Order.Ring.Nat
import FastDCS.TaggedFields

/-!
Messages with fields of their own: how they are written, that they are read back, and messages as
the values of fields.
-/

namespace FastDCS.TaggedFields

variable {limit : Nat} {U M : Type} [Monoid M]

/-- What stands for an unknown field is read as it was before: no field takes it, or the one that
does leaves it among the unknown ones. -/
def Unrecognized (wire : Wire limit U) (unknown : U → M) (fields : List (Field limit M)) (u : U) :
    Prop :=
  match select fields (wire.unknownTag u) with
  | none => True
  | some (f, _) => ∃ v, f.add v 1 = unknown u ∧
      ∀ rest, f.format.read (wire.writeUnknown u ++ rest) = .read v rest

def SoundValues (fields : List (Field limit M)) (m : M) : Prop :=
  ∀ f ∈ fields, ∀ v ∈ f.get m, f.format.Sound v

/-- The messages of one type: a message is the product of what its fields add. -/
structure Schema (wire : Wire limit U) (M : Type) [Monoid M] where
  fields : List (Field limit M)
  unknowns : M → List U
  unknownPart : List U → M
  isInitialized : M → Bool
  numbers_nodup : (fields.map (·.number)).Nodup
  length_writeTag : ∀ f ∈ fields, (wire.writeTag f.tag).length = f.tagSize
  unknownPart_nil : unknownPart [] = 1
  unknownPart_cons : ∀ u us, unknownPart (u :: us) = unknownPart [u] * unknownPart us
  assemble : ∀ m, (fields.map fun f => f.part m).prod * unknownPart (unknowns m) = m
  values_one : SoundValues fields 1
  values_mul : ∀ {m d}, SoundValues fields m → SoundValues fields d → SoundValues fields (m * d)
  values_unknownPart : ∀ us, SoundValues fields (unknownPart us)
  values_add : ∀ f ∈ fields, ∀ {v}, f.format.Sound v → SoundValues fields (f.add v 1)
  unknowns_one : unknowns 1 = []
  unknowns_mul : ∀ m d, unknowns (m * d) = unknowns m ++ unknowns d
  unknowns_unknownPart : ∀ us, unknowns (unknownPart us) = us
  unrecognized_of_add : ∀ f ∈ fields, ∀ v, ∀ u ∈ unknowns (f.add v 1),
    Unrecognized wire (unknownPart [·]) fields u

namespace Schema

variable {wire : Wire limit U} (schema : Schema wire M) {f : Field limit M} {m t : M} {s : Bytes}

def unknown (u : U) : M := schema.unknownPart [u]

/-- Every value is sound, and every unknown field is unknown to the message. -/
structure Sound (m : M) : Prop where
  values : SoundValues schema.fields m
  unknowns : ∀ u ∈ schema.unknowns m, Unrecognized wire schema.unknown schema.fields u

theorem sound_of_known (hvalues : SoundValues schema.fields m) (hknown : schema.unknowns m = []) :
    schema.Sound m where
  values := hvalues
  unknowns := by
    rw [hknown]
    exact List.forall_mem_nil _

theorem sound_one : schema.Sound 1 := schema.sound_of_known schema.values_one schema.unknowns_one

theorem Sound.mul {schema : Schema wire M} {m d : M} (hm : schema.Sound m) (hd : schema.Sound d) :
    schema.Sound (m * d) where
  values := schema.values_mul hm.values hd.values
  unknowns := by
    rw [schema.unknowns_mul]
    intro u hu
    rcases List.mem_append.mp hu with hu | hu
    · exact hm.unknowns u hu
    · exact hd.unknowns u hu

theorem sound_unknown {u : U} (hu : Unrecognized wire schema.unknown schema.fields u) :
    schema.Sound (schema.unknown u) where
  values := schema.values_unknownPart _
  unknowns := by
    rw [unknown, schema.unknowns_unknownPart]
    intro w hw
    rw [List.mem_singleton.mp hw]
    exact hu

theorem sound_add (hf : f ∈ schema.fields) {v : f.Value} (hv : f.format.Sound v) :
    schema.Sound (f.add v 1) where
  values := schema.values_add f hf hv
  unknowns := schema.unrecognized_of_add f hf v

def byteSize (m : M) : Nat :=
  (schema.fields.map fun f => ((f.get m).map fun v => f.tagSize + f.format.byteSize v).sum).sum +
    ((schema.unknowns m).map wire.unknownSize).sum

/-- The sizes that are kept with the values when the size of a message is computed. -/
def cachedSizes (m : M) : List (List Nat) :=
  schema.fields.map fun f => (f.get m).map f.format.cachedSize

def serializeWithCachedSizes (sizes : List (List Nat)) (m : M) : Bytes :=
  (List.zipWith (fun (f : Field limit M) sizes =>
      (List.zipWith (fun size v => wire.writeTag f.tag ++ f.format.write size v) sizes
        (f.get m)).flatten) schema.fields sizes).flatten ++
    (schema.unknowns m).flatMap fun u => wire.writeTag (wire.unknownTag u) ++ wire.writeUnknown u

def serialize (m : M) : Bytes := schema.serializeWithCachedSizes (schema.cachedSizes m) m

def mergeFrom (m : M) (s : Bytes) : Outcome M := merge wire schema.unknown schema.fields .head m s

/-- Whether a message is read completely, and what has been read of it. -/
def parse (s : Bytes) : Bool × M :=
  match schema.mergeFrom 1 s with
  | .merged m _ ended => (ended && schema.isInitialized m, m)
  | .failed m => (false, m)

/-- Writes a message to a buffer, if the buffer is large enough. -/
def serializeToArray (buffer : Bytes) (m : M) : Bool × Bytes :=
  if buffer.length < schema.byteSize m then (false, buffer)
  else (true, schema.serialize m ++ buffer.drop (schema.serialize m).length)

theorem mergeFrom_eq : schema.mergeFrom m s = mergeByTags wire schema.unknown schema.fields m s :=
  merge_eq_mergeByTags schema.numbers_nodup

def writeValue (wire : Wire limit U) (f : Field limit M) (v : f.Value) : Bytes :=
  wire.writeTag f.tag ++ f.format.write (f.format.cachedSize v) v

def writeField (wire : Wire limit U) (f : Field limit M) (vs : List f.Value) : Bytes :=
  vs.flatMap (writeValue wire f)

def writeUnknowns (wire : Wire limit U) (us : List U) : Bytes :=
  us.flatMap fun u => wire.writeTag (wire.unknownTag u) ++ wire.writeUnknown u

theorem serialize_eq (m : M) :
    schema.serialize m = (schema.fields.flatMap fun f => writeField wire f (f.get m)) ++
      writeUnknowns wire (schema.unknowns m) := by
  have hfield (f : Field limit M) (vs : List f.Value) :
      (List.zipWith (fun size v => wire.writeTag f.tag ++ f.format.write size v)
        (vs.map f.format.cachedSize) vs).flatten = writeField wire f vs := by
    rw [List.zipWith_map_left, List.zipWith_self]
    rfl
  rw [serialize, serializeWithCachedSizes, cachedSizes, List.zipWith_map_right, List.zipWith_self]
  simp only [hfield]
  rfl

theorem length_writeField (hf : f ∈ schema.fields) (vs : List f.Value) :
    (writeField wire f vs).length =
      (vs.map fun v => f.tagSize + f.format.byteSize v).sum := by
  induction vs with
  | nil => rfl
  | cons v vs ih =>
      rw [writeField, List.flatMap_cons, List.length_append]
      rw [writeField] at ih
      rw [ih, writeValue, List.length_append, schema.length_writeTag f hf, f.format.length_write,
        List.map_cons, List.sum_cons]

theorem length_writeUnknowns (us : List U) :
    (writeUnknowns wire us).length = (us.map wire.unknownSize).sum := by
  induction us with
  | nil => rfl
  | cons u us ih =>
      rw [writeUnknowns, List.flatMap_cons, List.length_append]
      rw [writeUnknowns] at ih
      rw [ih, wire.length_unknown, List.map_cons, List.sum_cons]

theorem length_serialize (m : M) : (schema.serialize m).length = schema.byteSize m := by
  rw [serialize_eq, List.length_append, length_writeUnknowns, byteSize, List.length_flatMap]
  congr 2
  apply List.map_congr_left
  intro f hf
  exact schema.length_writeField hf _

/-- A buffer of the size that is computed is filled, whatever it held before. -/
theorem serializeToArray_eq {buffer : Bytes} (hbuffer : buffer.length = schema.byteSize m) :
    schema.serializeToArray buffer m = (true, schema.serialize m) := by
  rw [serializeToArray, if_neg (by omega), List.drop_eq_nil_of_le, List.append_nil]
  rw [length_serialize]
  omega

/-- A field that is written is read, whatever follows it. -/
theorem round_writeValue (hf : f ∈ schema.fields) {v : f.Value} (hsound : f.format.Sound v)
    (hsize : f.format.byteSize v < limit) :
    round wire schema.unknown schema.fields t (writeValue wire f v ++ s) =
      .go (t * f.add v 1) s := by
  obtain ⟨before, behind, hfields⟩ := List.append_of_mem hf
  have htag : wire.readTag (writeValue wire f v ++ s) =
      (f.tag, f.format.write (f.format.cachedSize v) v ++ s) := by
    rw [writeValue, List.append_assoc]
    exact wire.readTag_writeTag f.tag_ne_zero
  have hselect := select_tag schema.numbers_nodup hfields
  rw [round, htag]
  dsimp only
  rw [if_neg (show f.tag ≠ 0 from f.tag_ne_zero), hselect]
  show mergeField f t _ = _
  rw [mergeField, f.format.read_write hsound hsize, ← f.add_eq]

theorem mergeByTags_writeField (hf : f ∈ schema.fields) {vs : List f.Value}
    (hsound : ∀ v ∈ vs, f.format.Sound v) (hsize : ∀ v ∈ vs, f.format.byteSize v < limit) :
    mergeByTags wire schema.unknown schema.fields t (writeField wire f vs ++ s) =
      mergeByTags wire schema.unknown schema.fields (t * (vs.map fun v => f.add v 1).prod) s := by
  induction vs generalizing t with
  | nil => simp [writeField]
  | cons v vs ih =>
      rw [List.forall_mem_cons] at hsound hsize
      have hround := schema.round_writeValue (t := t) (s := writeField wire f vs ++ s) hf hsound.1
        hsize.1
      have hwrite : writeField wire f (v :: vs) ++ s =
          writeValue wire f v ++ (writeField wire f vs ++ s) := by
        rw [writeField, List.flatMap_cons, List.append_assoc]
        rfl
      rw [hwrite, mergeByTags_of_go hround, ih hsound.2 hsize.2, List.map_cons, List.prod_cons,
        mul_assoc]

theorem mergeByTags_writeFields {fields : List (Field limit M)} (hfields : fields ⊆ schema.fields)
    (hsound : ∀ f ∈ fields, ∀ v ∈ f.get m, f.format.Sound v)
    (hsize : ∀ f ∈ fields, ∀ v ∈ f.get m, f.format.byteSize v < limit) :
    mergeByTags wire schema.unknown schema.fields t
        ((fields.flatMap fun f => writeField wire f (f.get m)) ++ s) =
      mergeByTags wire schema.unknown schema.fields
        (t * (fields.map fun f => ((f.get m).map fun v => f.add v 1).prod).prod) s := by
  induction fields generalizing t with
  | nil => simp
  | cons f fields ih =>
      rw [List.forall_mem_cons] at hsound hsize
      rw [List.cons_subset] at hfields
      rw [List.flatMap_cons, List.append_assoc,
        schema.mergeByTags_writeField hfields.1 hsound.1 hsize.1,
        ih hfields.2 hsound.2 hsize.2, List.map_cons, List.prod_cons, mul_assoc]

/-- An unknown field that is written is unknown again when it is read. -/
theorem round_writeUnknown {u : U} (hu : Unrecognized wire schema.unknown schema.fields u)
    (hsize : wire.unknownSize u < limit) :
    round wire schema.unknown schema.fields t
        (wire.writeTag (wire.unknownTag u) ++ wire.writeUnknown u ++ s) =
      .go (t * schema.unknown u) s := by
  have htag : wire.readTag (wire.writeTag (wire.unknownTag u) ++ wire.writeUnknown u ++ s) =
      (wire.unknownTag u, wire.writeUnknown u ++ s) := by
    rw [List.append_assoc]
    exact wire.readTag_writeTag (wire.unknownTag_ne_zero u)
  have hlength := wire.length_unknown u
  rw [List.length_append] at hlength
  rw [round, htag]
  dsimp only
  rw [if_neg (wire.unknownTag_ne_zero u)]
  unfold Unrecognized at hu
  cases hselect : select schema.fields (wire.unknownTag u) with
  | none =>
      show mergeUnknown wire schema.unknown _ t _ = _
      rw [mergeUnknown, if_neg (wire.wireType_unknownTag u), wire.skipField_writeUnknown (by omega)]
  | some selected =>
      rw [hselect] at hu
      obtain ⟨v, hadd, hread⟩ := hu
      show mergeField selected.1 t _ = _
      rw [mergeField, hread, ← hadd, ← selected.1.add_eq]

theorem mergeByTags_writeUnknowns {us : List U}
    (hus : ∀ u ∈ us, Unrecognized wire schema.unknown schema.fields u)
    (hsize : ∀ u ∈ us, wire.unknownSize u < limit) :
    mergeByTags wire schema.unknown schema.fields t (writeUnknowns wire us ++ s) =
      mergeByTags wire schema.unknown schema.fields (t * (us.map schema.unknown).prod) s := by
  induction us generalizing t with
  | nil => simp [writeUnknowns]
  | cons u us ih =>
      rw [List.forall_mem_cons] at hus hsize
      have hround := schema.round_writeUnknown (t := t) (s := writeUnknowns wire us ++ s) hus.1
        hsize.1
      have hwrite : writeUnknowns wire (u :: us) ++ s =
          wire.writeTag (wire.unknownTag u) ++ wire.writeUnknown u ++
            (writeUnknowns wire us ++ s) := by
        rw [writeUnknowns, List.flatMap_cons, List.append_assoc]
        rfl
      rw [hwrite, mergeByTags_of_go hround, ih hus.2 hsize.2, List.map_cons, List.prod_cons,
        mul_assoc]

theorem prod_unknown (us : List U) : (us.map schema.unknown).prod = schema.unknownPart us := by
  induction us with
  | nil => exact schema.unknownPart_nil.symm
  | cons u us ih => rw [List.map_cons, List.prod_cons, ih, unknown, ← schema.unknownPart_cons]

theorem prod_parts (m : M) :
    (schema.fields.map fun f => ((f.get m).map fun v => f.add v 1).prod).prod *
      ((schema.unknowns m).map schema.unknown).prod = m := by
  simp only [Field.prod_add]
  rw [prod_unknown, schema.assemble]

theorem byteSize_value_le (hf : f ∈ schema.fields) {v : f.Value} (hv : v ∈ f.get m) :
    f.format.byteSize v ≤ schema.byteSize m := by
  have hvalue := List.le_sum_of_mem
    (List.mem_map_of_mem (f := fun v => f.tagSize + f.format.byteSize v) hv)
  have hfield := List.le_sum_of_mem (List.mem_map_of_mem
    (f := fun f : Field limit M => ((f.get m).map fun v => f.tagSize + f.format.byteSize v).sum) hf)
  rw [byteSize]
  omega

theorem unknownSize_le {u : U} (hu : u ∈ schema.unknowns m) :
    wire.unknownSize u ≤ schema.byteSize m := by
  have hunknown := List.le_sum_of_mem (List.mem_map_of_mem (f := wire.unknownSize) hu)
  rw [byteSize]
  omega

/-- What is written of a message is merged as the message. -/
theorem mergeFrom_serialize (hsound : schema.Sound m) (hsize : schema.byteSize m < limit) :
    schema.mergeFrom t (schema.serialize m ++ s) = schema.mergeFrom (t * m) s := by
  rw [mergeFrom_eq, mergeFrom_eq, serialize_eq, List.append_assoc,
    schema.mergeByTags_writeFields (List.Subset.refl _) hsound.values fun f hf v hv =>
      (schema.byteSize_value_le hf hv).trans_lt hsize,
    schema.mergeByTags_writeUnknowns hsound.unknowns fun u hu =>
      (schema.unknownSize_le hu).trans_lt hsize,
    mul_assoc, schema.prod_parts]

theorem mergeFrom_nil : schema.mergeFrom t [] = .merged t [] true := by
  rw [mergeFrom_eq]
  apply mergeByTags_of_stop
  rw [round, wire.readTag_nil]
  rfl

theorem mergeFrom_serialize_end (hsound : schema.Sound m) (hsize : schema.byteSize m < limit) :
    schema.mergeFrom t (schema.serialize m) = .merged (t * m) [] true := by
  have h := schema.mergeFrom_serialize (t := t) (s := []) hsound hsize
  rw [List.append_nil, mergeFrom_nil] at h
  exact h

theorem parse_serialize (hsound : schema.Sound m) (hsize : schema.byteSize m < limit) :
    schema.parse (schema.serialize m) = (schema.isInitialized m, m) := by
  rw [parse, schema.mergeFrom_serialize_end hsound hsize, one_mul]
  exact congrArg (·, m) (Bool.true_and _)

/-- What is read does not depend on the message that it is merged into. -/
theorem mergeFrom_mul (t m : M) (s : Bytes) :
    schema.mergeFrom (t * m) s = (schema.mergeFrom m s).map (t * ·) := by
  rw [mergeFrom_eq, mergeFrom_eq]
  exact mergeByTags_mul t m s

/-- The bytes of two messages one behind the other are those of their product. -/
theorem mergeFrom_append {m' : M} {rest : Bytes} (h : schema.mergeFrom m s = .merged m' rest true)
    (u : Bytes) : schema.mergeFrom m (s ++ u) = schema.mergeFrom m' u := by
  rw [mergeFrom_eq] at h ⊢
  rw [mergeFrom_eq]
  exact mergeByTags_append h u

theorem parse_append {a b : Bytes} {n : M} (ha : schema.parse a = (true, m))
    (hb : schema.parse b = (true, n)) :
    schema.parse (a ++ b) = (schema.isInitialized (m * n), m * n) := by
  unfold parse at ha hb ⊢
  cases houta : schema.mergeFrom 1 a with
  | failed m' => simp [houta] at ha
  | merged m' rest ended =>
      cases houtb : schema.mergeFrom 1 b with
      | failed n' => simp [houtb] at hb
      | merged n' rest' ended' =>
          simp only [houta, houtb, Prod.mk.injEq, Bool.and_eq_true] at ha hb
          obtain ⟨⟨rfl, -⟩, rfl⟩ := ha
          obtain ⟨⟨rfl, -⟩, rfl⟩ := hb
          have hmul := schema.mergeFrom_mul m' 1 b
          rw [mul_one, houtb] at hmul
          rw [schema.mergeFrom_append houta, hmul]
          rfl

variable {m' : M} {rest : Bytes}

theorem sound_mergeField {following : List (Field limit M)} {tag : UInt32}
    (hselect : select schema.fields tag = some (f, following)) (hsound : schema.Sound m)
    (h : mergeField f m s = .go m' rest) : schema.Sound m' := by
  have hf : f ∈ schema.fields := (mem_of_select hselect).subset List.mem_cons_self
  unfold mergeField at h
  cases hread : f.format.read s with
  | failed part => simp [hread] at h
  | read v behind =>
      simp only [hread, Round.go.injEq] at h
      rw [← h.1, f.add_eq]
      exact hsound.mul (schema.sound_add hf (f.format.sound_of_read hread))

theorem sound_mergeUnknown {tag : UInt32} (hselect : select schema.fields tag = none)
    (hsound : schema.Sound m) (h : mergeUnknown wire schema.unknown tag m s = .go m' rest) :
    schema.Sound m' := by
  unfold mergeUnknown at h
  split_ifs at h
  cases hskip : wire.skipField tag s with
  | failed part => simp [hskip] at h
  | read u behind =>
      simp only [hskip, Round.go.injEq] at h
      have hu : Unrecognized wire schema.unknown schema.fields u := by
        rw [Unrecognized, wire.unknownTag_of_skipField hskip, hselect]
        trivial
      rw [← h.1]
      exact hsound.mul (schema.sound_unknown hu)

theorem of_round_merged {m'' : M} {ended : Bool}
    (h : round wire schema.unknown schema.fields m s = .stop (.merged m'' rest ended)) :
    m'' = m := by
  unfold round at h
  split_ifs at h with hend
  · simp only [Round.stop.injEq, Outcome.merged.injEq] at h
    exact h.1.symm
  · cases hselect : select schema.fields (wire.readTag s).1 with
    | none =>
        rw [hselect] at h
        simp only [mergeUnknown] at h
        split_ifs at h
        · simp only [Round.stop.injEq, Outcome.merged.injEq] at h
          exact h.1.symm
        · cases hskip : wire.skipField (wire.readTag s).1 (wire.readTag s).2 <;> simp [hskip] at h
    | some selected =>
        rw [hselect] at h
        simp only [mergeField] at h
        cases hread : selected.1.format.read (wire.readTag s).2 <;> simp [hread] at h

/-- Whatever bytes are merged, what comes of them is sound. -/
theorem sound_of_mergeFrom {ended : Bool} (hsound : schema.Sound m)
    (h : schema.mergeFrom m s = .merged m' rest ended) : schema.Sound m' := by
  rw [mergeFrom_eq] at h
  induction m, s using mergeByTags.induct wire schema.unknown schema.fields with
  | case1 m s outcome hstop =>
      rw [mergeByTags_of_stop hstop] at h
      rw [h] at hstop
      rw [schema.of_round_merged hstop]
      exact hsound
  | case2 m s m₁ rest₁ hgo ih =>
      rw [mergeByTags_of_go hgo] at h
      refine ih ?_ h
      unfold round at hgo
      split_ifs at hgo with hend
      cases hselect : select schema.fields (wire.readTag s).1 with
      | none =>
          rw [hselect] at hgo
          exact schema.sound_mergeUnknown hselect hsound hgo
      | some selected =>
          rw [hselect] at hgo
          exact schema.sound_mergeField hselect hsound hgo

theorem sound_of_parse (h : schema.parse s = (true, m)) : schema.Sound m := by
  unfold parse at h
  cases hout : schema.mergeFrom 1 s with
  | failed m' => simp [hout] at h
  | merged m' rest ended =>
      simp only [hout, Prod.mk.injEq] at h
      rw [← h.2]
      exact schema.sound_of_mergeFrom schema.sound_one hout

end Schema

/-- What reads and writes a message behind its size. -/
structure Nested (limit : Nat) where
  readMessage : {M : Type} → (Bytes → Outcome M) → Bytes → Reading M
  writeSize : Nat → Bytes
  sizeSize : Nat → Nat
  length_writeSize : ∀ n, (writeSize n).length = sizeSize n
  readMessage_le : ∀ {M : Type} {merge : Bytes → Outcome M} {s m rest},
    readMessage merge s = .read m rest → rest.length ≤ s.length
  readMessage_append : ∀ {M : Type} {merge : Bytes → Outcome M} {s t m rest},
    readMessage merge s = .read m rest → readMessage merge (s ++ t) = .read m (rest ++ t)
  merged_of_readMessage : ∀ {M : Type} {merge : Bytes → Outcome M} {s m rest},
    readMessage merge s = .read m rest → ∃ payload behind, merge payload = .merged m behind true
  readMessage_writeSize : ∀ {M : Type} {merge : Bytes → Outcome M} {payload m rest},
    merge payload = .merged m [] true → payload.length < limit →
      readMessage merge (writeSize payload.length ++ payload ++ rest) = .read m rest

/-- Messages of a schema as the values of a field. -/
def Schema.format {wire : Wire limit U} (schema : Schema wire M) (nested : Nested limit) :
    Format limit M where
  read := nested.readMessage (schema.mergeFrom 1)
  cachedSize := schema.byteSize
  write size m := nested.writeSize size ++ schema.serialize m
  byteSize m := nested.sizeSize (schema.byteSize m) + schema.byteSize m
  Sound := schema.Sound
  read_le := nested.readMessage_le
  read_append := nested.readMessage_append
  sound_of_read h := by
    obtain ⟨payload, behind, hmerge⟩ := nested.merged_of_readMessage h
    exact schema.sound_of_mergeFrom schema.sound_one hmerge
  read_write hsound hsize := by
    have hlength := schema.length_serialize
    rw [← hlength]
    apply nested.readMessage_writeSize
    · have h := schema.mergeFrom_serialize_end (t := 1) hsound (by omega)
      rw [one_mul] at h
      exact h
    · rw [hlength]
      omega
  length_write m := by
    rw [List.length_append, nested.length_writeSize, schema.length_serialize]

end FastDCS.TaggedFields
