import Mathlib.Algebra.Group.Defs
import Mathlib.Algebra.BigOperators.Group.List.Basic

/-!
Messages that are read field by field, each behind a tag with its number and its wire type.
Messages are merged by a monoid; what a field adds does not depend on what was there before.
-/

namespace FastDCS.TaggedFields

abbrev Bytes := List UInt8

def fieldNumber (tag : UInt32) : UInt32 := tag >>> 3

def wireType (tag : UInt32) : UInt32 := tag &&& 7

def makeTag (number type : UInt32) : UInt32 := (number <<< 3) ||| type

/-- The wire type of a tag that closes a group. -/
def endGroup : UInt32 := 4

/-- What comes of reading one value. A reading that fails may have stored a part of it. -/
inductive Reading (α : Type) where
  | read (value : α) (rest : Bytes)
  | failed (part : Option α)

/-- What comes of reading the fields of a message: whether it goes on to the very end of its
bytes, or stops at a tag that belongs to something around it. -/
inductive Outcome (M : Type) where
  | merged (message : M) (rest : Bytes) (ended : Bool)
  | failed (message : M)

/-- One round of such a loop. -/
inductive Round (M : Type) where
  | stop (outcome : Outcome M)
  | go (message : M) (rest : Bytes)

def Outcome.map {M N : Type} (f : M → N) : Outcome M → Outcome N
  | .merged message rest ended => .merged (f message) rest ended
  | .failed message => .failed (f message)

def Round.map {M N : Type} (f : M → N) : Round M → Round N
  | .stop outcome => .stop (outcome.map f)
  | .go message rest => .go (f message) rest

/-- What reads and writes tags and the fields that a message does not know. -/
structure Wire (limit : Nat) (U : Type) where
  /-- The next tag, 0 at the end and where there is none. -/
  readTag : Bytes → UInt32 × Bytes
  /-- Whether the next tag is found to be this one. -/
  expectTag : UInt32 → Bytes → Bool
  /-- Whether it is found that nothing is left. -/
  expectAtEnd : Bytes → Bool
  skipField : UInt32 → Bytes → Reading U
  writeTag : UInt32 → Bytes
  unknownTag : U → UInt32
  writeUnknown : U → Bytes
  unknownSize : U → Nat
  readTag_nil : readTag [] = (0, [])
  readTag_lt : ∀ {s}, (readTag s).1 ≠ 0 → (readTag s).2.length < s.length
  readTag_append : ∀ {s t}, (readTag s).1 ≠ 0 →
    readTag (s ++ t) = ((readTag s).1, (readTag s).2 ++ t)
  readTag_writeTag : ∀ {tag rest}, tag ≠ 0 → readTag (writeTag tag ++ rest) = (tag, rest)
  expectTag_sound : ∀ {tag s}, expectTag tag s = true → (readTag s).1 = tag
  expectAtEnd_sound : ∀ {s}, expectAtEnd s = true → s = []
  skipField_le : ∀ {tag s u rest}, skipField tag s = .read u rest → rest.length ≤ s.length
  skipField_append : ∀ {tag s t u rest}, skipField tag s = .read u rest →
    skipField tag (s ++ t) = .read u (rest ++ t)
  unknownTag_of_skipField : ∀ {tag s u rest}, skipField tag s = .read u rest →
    unknownTag u = tag
  skipField_writeUnknown : ∀ {u rest}, (writeUnknown u).length < limit →
    skipField (unknownTag u) (writeUnknown u ++ rest) = .read u rest
  unknownTag_ne_zero : ∀ u, unknownTag u ≠ 0
  wireType_unknownTag : ∀ u, wireType (unknownTag u) ≠ endGroup
  length_unknown : ∀ u, (writeTag (unknownTag u) ++ writeUnknown u).length = unknownSize u

/-- How the values of a field are read and written. What is written before a value can depend on
a size that was computed for it earlier. -/
structure Format (limit : Nat) (α : Type) where
  read : Bytes → Reading α
  cachedSize : α → Nat
  write : Nat → α → Bytes
  byteSize : α → Nat
  Sound : α → Prop
  read_le : ∀ {s v rest}, read s = .read v rest → rest.length ≤ s.length
  read_append : ∀ {s t v rest}, read s = .read v rest → read (s ++ t) = .read v (rest ++ t)
  sound_of_read : ∀ {s v rest}, read s = .read v rest → Sound v
  read_write : ∀ {v rest}, Sound v → byteSize v < limit →
    read (write (cachedSize v) v ++ rest) = .read v rest
  length_write : ∀ v, (write (cachedSize v) v).length = byteSize v

/-- A field of the messages `M`: the values that it has in a message, how one more is added, and
the part of a message that the field makes up. -/
structure Field (limit : Nat) (M : Type) [Monoid M] where
  number : UInt32
  type : UInt32
  repeated : Bool
  tagSize : Nat
  Value : Type
  format : Format limit Value
  get : M → List Value
  add : Value → M → M
  part : M → M
  tag_ne_zero : makeTag number type ≠ 0
  fieldNumber_makeTag : fieldNumber (makeTag number type) = number
  wireType_makeTag : wireType (makeTag number type) = type
  add_eq : ∀ v m, add v m = m * add v 1
  prod_add : ∀ m, ((get m).map fun v => add v 1).prod = part m

variable {limit : Nat} {U M : Type} [Monoid M]

def Field.tag (f : Field limit M) : UInt32 := makeTag f.number f.type

/-- The field that a tag selects, with those behind it. -/
def select (fields : List (Field limit M)) (tag : UInt32) :
    Option (Field limit M × List (Field limit M)) :=
  match fields.dropWhile fun f => f.number != fieldNumber tag with
  | [] => none
  | f :: following => if wireType tag = f.type then some (f, following) else none

theorem select_tag {fields : List (Field limit M)} (hnodup : (fields.map (·.number)).Nodup)
    {f : Field limit M} {before behind : List (Field limit M)}
    (hfields : fields = before ++ f :: behind) : select fields f.tag = some (f, behind) := by
  have hnumber : fieldNumber f.tag = f.number := f.fieldNumber_makeTag
  have hbefore : ∀ g ∈ before, (g.number != fieldNumber f.tag) = true := by
    intro g hg
    rw [hfields, List.map_append, List.map_cons, List.nodup_append] at hnodup
    rw [hnumber, bne_iff_ne]
    exact hnodup.2.2 _ (List.mem_map_of_mem hg) _ List.mem_cons_self
  have hf : (f.number != fieldNumber f.tag) = false := by
    rw [hnumber, bne_self_eq_false]
  have hdrop : fields.dropWhile (fun g => g.number != fieldNumber f.tag) = f :: behind := by
    rw [hfields, List.dropWhile_append_of_pos hbefore, List.dropWhile_cons, hf]
    rfl
  rw [select, hdrop]
  exact if_pos f.wireType_makeTag

theorem mem_of_select {fields : List (Field limit M)} {tag : UInt32} {f : Field limit M}
    {following : List (Field limit M)} (h : select fields tag = some (f, following)) :
    f :: following <:+ fields := by
  unfold select at h
  have hsuffix := List.dropWhile_suffix (l := fields) fun g => g.number != fieldNumber tag
  cases hdrop : fields.dropWhile fun g => g.number != fieldNumber tag with
  | nil =>
      rw [hdrop] at h
      cases h
  | cons g behind =>
      rw [hdrop] at h hsuffix
      simp only [Option.ite_none_right_eq_some, Option.some.injEq, Prod.mk.injEq] at h
      rw [← h.2.1, ← h.2.2]
      exact hsuffix

/-- The place in the loop: at its head, or behind the tag of a field. -/
inductive Label (limit : Nat) (M : Type) [Monoid M] where
  | head
  | field (f : Field limit M) (following : List (Field limit M))

def Label.rank : Label limit M → Nat
  | .head => 0
  | .field _ _ => 1

/-- The field whose tag is expected next: the same one again where it is repeated, or the one that
follows. -/
def expected (wire : Wire limit U) (f : Field limit M) (following : List (Field limit M))
    (s : Bytes) : Option (Field limit M × List (Field limit M)) :=
  if f.repeated && wire.expectTag f.tag s then some (f, following)
  else
    match following with
    | [] => none
    | next :: behind => if wire.expectTag next.tag s then some (next, behind) else none

theorem readTag_of_expected {wire : Wire limit U} {f g : Field limit M}
    {following behind : List (Field limit M)} {s : Bytes}
    (h : expected wire f following s = some (g, behind)) : (wire.readTag s).1 = g.tag := by
  unfold expected at h
  split_ifs at h with hsame
  · obtain ⟨rfl, rfl⟩ := Prod.mk.inj (Option.some.inj h)
    apply wire.expectTag_sound
    exact (Bool.and_eq_true _ _ ▸ hsame).2
  · cases following with
    | nil => cases h
    | cons next rest =>
        simp only [Option.ite_none_right_eq_some] at h
        obtain ⟨hnext, heq⟩ := h
        obtain ⟨rfl, rfl⟩ := Prod.mk.inj (Option.some.inj heq)
        exact wire.expectTag_sound hnext

/-- Behind the tag of a field. -/
def mergeField (f : Field limit M) (m : M) (s : Bytes) : Round M :=
  match f.format.read s with
  | .failed part => .stop (.failed ((part.map fun v => f.add v m).getD m))
  | .read v rest => .go (f.add v m) rest

/-- Behind a tag that selects no field. -/
def mergeUnknown (wire : Wire limit U) (unknown : U → M) (tag : UInt32) (m : M) (s : Bytes) :
    Round M :=
  if wireType tag = endGroup then .stop (.merged m s false)
  else
    match wire.skipField tag s with
    | .failed part => .stop (.failed (m * (part.map unknown).getD 1))
    | .read u rest => .go (m * unknown u) rest

theorem le_of_mergeField {f : Field limit M} {m m' : M} {s rest : Bytes}
    (h : mergeField f m s = .go m' rest) : rest.length ≤ s.length := by
  unfold mergeField at h
  cases hread : f.format.read s with
  | failed part => simp [hread] at h
  | read v behind =>
      simp only [hread, Round.go.injEq] at h
      rw [← h.2]
      exact f.format.read_le hread

theorem le_of_mergeUnknown {wire : Wire limit U} {unknown : U → M} {tag : UInt32} {m m' : M}
    {s rest : Bytes} (h : mergeUnknown wire unknown tag m s = .go m' rest) :
    rest.length ≤ s.length := by
  unfold mergeUnknown at h
  split_ifs at h
  cases hskip : wire.skipField tag s with
  | failed part => simp [hskip] at h
  | read u behind =>
      simp only [hskip, Round.go.injEq] at h
      rw [← h.2]
      exact wire.skipField_le hskip

/-- The loop that merges the fields in `s` into a message, with its shortcuts: behind a field it
looks whether the next one comes before it reads a tag. -/
def merge (wire : Wire limit U) (unknown : U → M) (fields : List (Field limit M)) :
    Label limit M → M → Bytes → Outcome M
  | .head, m, s =>
      if _hend : (wire.readTag s).1 = 0 then .merged m (wire.readTag s).2 s.isEmpty
      else
        match select fields (wire.readTag s).1 with
        | some (f, following) => merge wire unknown fields (.field f following) m (wire.readTag s).2
        | none =>
            match _hskip : mergeUnknown wire unknown (wire.readTag s).1 m (wire.readTag s).2 with
            | .stop outcome => outcome
            | .go m' rest => merge wire unknown fields .head m' rest
  | .field f following, m, s =>
      match _hread : mergeField f m s with
      | .stop outcome => outcome
      | .go m' rest =>
          match _hnext : expected wire f following rest with
          | some (next, behind) =>
              merge wire unknown fields (.field next behind) m' (wire.readTag rest).2
          | none =>
              if following.isEmpty && wire.expectAtEnd rest then .merged m' rest true
              else merge wire unknown fields .head m' rest
termination_by label _ s => (s.length, label.rank)
decreasing_by
  · exact Prod.Lex.left _ _ (wire.readTag_lt _hend)
  · have hle := le_of_mergeUnknown _hskip
    exact Prod.Lex.left _ _ (Nat.lt_of_le_of_lt hle (wire.readTag_lt _hend))
  · have hle := le_of_mergeField _hread
    have hlt := wire.readTag_lt (s := rest) (readTag_of_expected _hnext ▸ next.tag_ne_zero)
    exact Prod.Lex.left _ _ (Nat.lt_of_lt_of_le hlt hle)
  · have hle := le_of_mergeField _hread
    rcases Nat.lt_or_eq_of_le hle with hlt | heq
    · exact Prod.Lex.left _ _ hlt
    · rw [heq]
      exact Prod.Lex.right _ Nat.zero_lt_one

section
variable {wire : Wire limit U} {unknown : U → M} {fields : List (Field limit M)} {m m' : M}
  {s rest : Bytes} {f next : Field limit M} {following behind : List (Field limit M)}
  {outcome : Outcome M}

theorem merge_head_of_stop (hend : (wire.readTag s).1 ≠ 0)
    (hselect : select fields (wire.readTag s).1 = none)
    (h : mergeUnknown wire unknown (wire.readTag s).1 m (wire.readTag s).2 = .stop outcome) :
    merge wire unknown fields .head m s = outcome := by
  rw [merge, dif_neg hend, hselect]
  dsimp only
  split
  · rename_i hstop
    exact (Round.stop.inj (h.symm.trans hstop)).symm
  · rename_i hgo
    cases h.symm.trans hgo

theorem merge_head_of_go (hend : (wire.readTag s).1 ≠ 0)
    (hselect : select fields (wire.readTag s).1 = none)
    (h : mergeUnknown wire unknown (wire.readTag s).1 m (wire.readTag s).2 = .go m' rest) :
    merge wire unknown fields .head m s = merge wire unknown fields .head m' rest := by
  rw [merge, dif_neg hend, hselect]
  dsimp only
  split
  · rename_i hstop
    cases h.symm.trans hstop
  · rename_i hgo
    cases h.symm.trans hgo
    rfl

theorem merge_field_of_stop (h : mergeField f m s = .stop outcome) :
    merge wire unknown fields (.field f following) m s = outcome := by
  rw [merge]
  split
  · rename_i hstop
    exact (Round.stop.inj (h.symm.trans hstop)).symm
  · rename_i hgo
    cases h.symm.trans hgo

theorem merge_field_of_expected (h : mergeField f m s = .go m' rest)
    (hnext : expected wire f following rest = some (next, behind)) :
    merge wire unknown fields (.field f following) m s =
      merge wire unknown fields (.field next behind) m' (wire.readTag rest).2 := by
  rw [merge]
  split
  · rename_i hstop
    cases h.symm.trans hstop
  · rename_i hgo
    cases h.symm.trans hgo
    split
    · rename_i hsome
      cases hnext.symm.trans hsome
      rfl
    · rename_i hnone
      cases hnext.symm.trans hnone

theorem merge_field_of_none (h : mergeField f m s = .go m' rest)
    (hnext : expected wire f following rest = none) :
    merge wire unknown fields (.field f following) m s =
      if following.isEmpty && wire.expectAtEnd rest then .merged m' rest true
      else merge wire unknown fields .head m' rest := by
  rw [merge.eq_2]
  split
  · rename_i hstop
    cases h.symm.trans hstop
  · rename_i hgo
    cases h.symm.trans hgo
    split
    · rename_i hsome
      cases hnext.symm.trans hsome
    · rfl

end

/-- One round without shortcuts: a tag, and the field that it selects. -/
def round (wire : Wire limit U) (unknown : U → M) (fields : List (Field limit M)) (m : M)
    (s : Bytes) : Round M :=
  if (wire.readTag s).1 = 0 then .stop (.merged m (wire.readTag s).2 s.isEmpty)
  else
    match select fields (wire.readTag s).1 with
    | some (f, _) => mergeField f m (wire.readTag s).2
    | none => mergeUnknown wire unknown (wire.readTag s).1 m (wire.readTag s).2

variable {wire : Wire limit U} {unknown : U → M} {fields : List (Field limit M)} {m m' : M}
  {s rest : Bytes}

theorem lt_of_round (h : round wire unknown fields m s = .go m' rest) :
    rest.length < s.length := by
  unfold round at h
  split_ifs at h with hend
  have hlt := wire.readTag_lt hend
  cases hselect : select fields (wire.readTag s).1 with
  | none =>
      rw [hselect] at h
      exact Nat.lt_of_le_of_lt (le_of_mergeUnknown h) hlt
  | some selected =>
      rw [hselect] at h
      exact Nat.lt_of_le_of_lt (le_of_mergeField h) hlt

def mergeByTags (wire : Wire limit U) (unknown : U → M) (fields : List (Field limit M)) (m : M)
    (s : Bytes) : Outcome M :=
  match _h : round wire unknown fields m s with
  | .stop outcome => outcome
  | .go m' rest => mergeByTags wire unknown fields m' rest
termination_by s.length
decreasing_by exact lt_of_round _h

theorem mergeByTags_of_stop {outcome : Outcome M}
    (h : round wire unknown fields m s = .stop outcome) :
    mergeByTags wire unknown fields m s = outcome := by
  rw [mergeByTags]
  split
  · simp_all
  · simp_all

theorem mergeByTags_of_go (h : round wire unknown fields m s = .go m' rest) :
    mergeByTags wire unknown fields m s = mergeByTags wire unknown fields m' rest := by
  rw [mergeByTags]
  split
  · simp_all
  · simp_all

/-- What follows at a place in the loop, without shortcuts. -/
def resume (wire : Wire limit U) (unknown : U → M) (fields : List (Field limit M)) :
    Label limit M → M → Bytes → Outcome M
  | .head, m, s => mergeByTags wire unknown fields m s
  | .field f _, m, s =>
      match mergeField f m s with
      | .stop outcome => outcome
      | .go m' rest => mergeByTags wire unknown fields m' rest

def Label.Within (fields : List (Field limit M)) : Label limit M → Prop
  | .head => True
  | .field f following => f :: following <:+ fields

theorem mergeByTags_eq_resume {f : Field limit M} {following : List (Field limit M)}
    (htag : (wire.readTag s).1 ≠ 0)
    (hselect : select fields (wire.readTag s).1 = some (f, following)) :
    mergeByTags wire unknown fields m s =
      resume wire unknown fields (.field f following) m (wire.readTag s).2 := by
  have hround : round wire unknown fields m s = mergeField f m (wire.readTag s).2 := by
    rw [round, if_neg htag, hselect]
  cases hfield : mergeField f m (wire.readTag s).2 with
  | stop outcome => rw [mergeByTags_of_stop (hround.trans hfield), resume, hfield]
  | go m' rest => rw [mergeByTags_of_go (hround.trans hfield), resume, hfield]

theorem within_of_expected {f g : Field limit M} {following behind : List (Field limit M)}
    (h : expected wire f following s = some (g, behind)) (hwithin : f :: following <:+ fields) :
    g :: behind <:+ fields := by
  unfold expected at h
  split_ifs at h
  · obtain ⟨rfl, rfl⟩ := Prod.mk.inj (Option.some.inj h)
    exact hwithin
  · cases following with
    | nil => cases h
    | cons next rest =>
        simp only [Option.ite_none_right_eq_some, Option.some.injEq, Prod.mk.injEq] at h
        rw [← h.2.1, ← h.2.2]
        exact (List.suffix_cons f _).trans hwithin

/-- The shortcuts change nothing, whenever they are taken. -/
theorem merge_eq_resume (hnodup : (fields.map (·.number)).Nodup) {label : Label limit M}
    (hwithin : label.Within fields) :
    merge wire unknown fields label m s = resume wire unknown fields label m s := by
  induction label, m, s using merge.induct wire unknown fields with
  | case1 m s hend =>
      rw [merge, dif_pos hend]
      exact (mergeByTags_of_stop (if_pos hend)).symm
  | case2 m s hend f following hselect ih =>
      rw [merge, dif_neg hend, hselect]
      exact (ih (mem_of_select hselect)).trans (mergeByTags_eq_resume hend hselect).symm
  | case3 m s hend hselect outcome hskip =>
      have hround : round wire unknown fields m s = .stop outcome := by
        rw [round, if_neg hend, hselect]
        exact hskip
      exact (merge_head_of_stop hend hselect hskip).trans (mergeByTags_of_stop hround).symm
  | case4 m s hend hselect m' rest hskip ih =>
      have hround : round wire unknown fields m s = .go m' rest := by
        rw [round, if_neg hend, hselect]
        exact hskip
      rw [merge_head_of_go hend hselect hskip, ih trivial]
      exact (mergeByTags_of_go hround).symm
  | case5 f following m s outcome hread => rw [merge_field_of_stop hread, resume, hread]
  | case6 f following m s m' rest hread next behind hnext ih =>
      have hfollows := within_of_expected hnext hwithin
      have htag := readTag_of_expected hnext
      obtain ⟨before, hfields⟩ := hfollows
      have hselect : select fields (wire.readTag rest).1 = some (next, behind) :=
        htag ▸ select_tag hnodup hfields.symm
      rw [merge_field_of_expected hread hnext, ih ⟨before, hfields⟩, resume.eq_2 (f := f), hread]
      exact (mergeByTags_eq_resume (htag ▸ next.tag_ne_zero) hselect).symm
  | case7 f following m s m' rest hread hnext hatend =>
      have hrest := wire.expectAtEnd_sound ((Bool.and_eq_true _ _ ▸ hatend).2)
      have hround : round wire unknown fields m' rest = .stop (.merged m' rest true) := by
        rw [round, hrest, wire.readTag_nil]
        rfl
      rw [merge_field_of_none hread hnext, if_pos hatend, resume, hread]
      exact (mergeByTags_of_stop hround).symm
  | case8 f following m s m' rest hread hnext hatend ih =>
      rw [merge_field_of_none hread hnext, if_neg hatend, ih trivial, resume.eq_2, hread]
      rfl

/-- The shortcuts change nothing, so that the loop is the one by tags. -/
theorem merge_eq_mergeByTags (hnodup : (fields.map (·.number)).Nodup) :
    merge wire unknown fields .head m s = mergeByTags wire unknown fields m s :=
  merge_eq_resume hnodup trivial

theorem Field.add_mul (f : Field limit M) (v : f.Value) (t m : M) :
    f.add v (t * m) = t * f.add v m := by
  rw [f.add_eq, f.add_eq v m, mul_assoc]

theorem mergeField_mul (f : Field limit M) (t m : M) (s : Bytes) :
    mergeField f (t * m) s = (mergeField f m s).map (t * ·) := by
  unfold mergeField
  cases f.format.read s with
  | read v rest => simp [Round.map, f.add_mul]
  | failed part =>
      cases part with
      | none => rfl
      | some v => simp [Round.map, Outcome.map, f.add_mul]

theorem mergeUnknown_mul (wire : Wire limit U) (unknown : U → M) (tag : UInt32) (t m : M)
    (s : Bytes) :
    mergeUnknown wire unknown tag (t * m) s = (mergeUnknown wire unknown tag m s).map (t * ·) := by
  unfold mergeUnknown
  split_ifs
  · rfl
  · cases wire.skipField tag s <;> simp [Round.map, Outcome.map, mul_assoc]

theorem round_mul (wire : Wire limit U) (unknown : U → M) (fields : List (Field limit M)) (t m : M)
    (s : Bytes) :
    round wire unknown fields (t * m) s = (round wire unknown fields m s).map (t * ·) := by
  unfold round
  split_ifs
  · rfl
  · cases select fields (wire.readTag s).1 with
    | none => exact mergeUnknown_mul wire unknown _ t m _
    | some selected => exact mergeField_mul selected.1 t m _

/-- What is read does not depend on the message that it is merged into. -/
theorem mergeByTags_mul (t m : M) (s : Bytes) :
    mergeByTags wire unknown fields (t * m) s =
      (mergeByTags wire unknown fields m s).map (t * ·) := by
  induction m, s using mergeByTags.induct wire unknown fields with
  | case1 m s outcome h =>
      rw [mergeByTags_of_stop h]
      apply mergeByTags_of_stop
      rw [round_mul, h]
      rfl
  | case2 m s m' rest h ih =>
      rw [mergeByTags_of_go h, ← ih]
      apply mergeByTags_of_go
      rw [round_mul, h]
      rfl

theorem mergeField_append {f : Field limit M} (h : mergeField f m s = .go m' rest) (u : Bytes) :
    mergeField f m (s ++ u) = .go m' (rest ++ u) := by
  unfold mergeField at h ⊢
  cases hread : f.format.read s with
  | failed part => simp [hread] at h
  | read v behind =>
      simp only [hread, Round.go.injEq] at h
      rw [f.format.read_append hread, ← h.1, ← h.2]

theorem mergeUnknown_append {tag : UInt32} (h : mergeUnknown wire unknown tag m s = .go m' rest)
    (u : Bytes) : mergeUnknown wire unknown tag m (s ++ u) = .go m' (rest ++ u) := by
  unfold mergeUnknown at h ⊢
  split_ifs at h ⊢
  cases hskip : wire.skipField tag s with
  | failed part => simp [hskip] at h
  | read v behind =>
      simp only [hskip, Round.go.injEq] at h
      rw [wire.skipField_append hskip, ← h.1, ← h.2]

theorem round_append (h : round wire unknown fields m s = .go m' rest) (u : Bytes) :
    round wire unknown fields m (s ++ u) = .go m' (rest ++ u) := by
  unfold round at h ⊢
  split_ifs at h with hend
  rw [wire.readTag_append hend, if_neg hend]
  cases hselect : select fields (wire.readTag s).1 with
  | none =>
      rw [hselect] at h
      exact mergeUnknown_append h u
  | some selected =>
      rw [hselect] at h
      exact mergeField_append h u

theorem of_round_ended (h : round wire unknown fields m s = .stop (.merged m' rest true)) :
    s = [] ∧ m' = m ∧ rest = [] := by
  unfold round at h
  split_ifs at h with hend
  · simp only [Round.stop.injEq, Outcome.merged.injEq, List.isEmpty_iff] at h
    obtain ⟨rfl, hrest, rfl⟩ := h
    rw [wire.readTag_nil] at hrest
    exact ⟨rfl, rfl, hrest.symm⟩
  · exfalso
    cases hselect : select fields (wire.readTag s).1 with
    | none =>
        rw [hselect] at h
        simp only [mergeUnknown] at h
        split_ifs at h
        · simp at h
        · cases hskip : wire.skipField (wire.readTag s).1 (wire.readTag s).2 <;> simp [hskip] at h
    | some selected =>
        rw [hselect] at h
        simp only [mergeField] at h
        cases hread : selected.1.format.read (wire.readTag s).2 <;> simp [hread] at h

/-- A message that goes on to the end of its bytes is followed by what comes behind them. -/
theorem mergeByTags_append (h : mergeByTags wire unknown fields m s = .merged m' rest true)
    (u : Bytes) :
    mergeByTags wire unknown fields m (s ++ u) = mergeByTags wire unknown fields m' u := by
  induction m, s using mergeByTags.induct wire unknown fields with
  | case1 m s outcome hstop =>
      rw [mergeByTags_of_stop hstop] at h
      rw [h] at hstop
      obtain ⟨rfl, rfl, -⟩ := of_round_ended hstop
      rfl
  | case2 m s m₁ rest₁ hgo ih =>
      rw [mergeByTags_of_go hgo] at h
      rw [mergeByTags_of_go (round_append hgo u)]
      exact ih h

end FastDCS.TaggedFields
