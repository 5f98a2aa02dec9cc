import FieldSchema.Proofs.Flattening
import FieldSchema.Proofs.Written

/-! Writing a normalized map and reading it back. However a map was normalized, the options of each
field in it obey the rules of its type, its names are distinct and its references resolved; so what
is written of it is read as the same map, field by field. -/
namespace FieldSchema

namespace Field

def type? : Field → Option Primitive
  | .primitive type _ => some type
  | .object .. => none

/-- The options of the field obey the rules of its type. -/
def Lawful (field : Field) : Prop := Options.Lawful field.type? (field.options, field.isArray)

end Field

namespace FieldMap

def Lawful (map : FieldMap) : Prop := ∀ name field, (name, field) ∈ map → field.Lawful

theorem throughout_lawful_of_compiles {settings : Settings} {path : Path} {nested : Bool}
    {members others : Members} {map : FieldMap}
    (compiles : Collection.Compiles settings path nested members others map) :
    map.Throughout Lawful := by
  induction map using FieldMap.induction generalizing path nested members others with
  | step map ih =>
    refine throughout_iff.mpr ⟨fun name field member => ?_, fun name inner traits member => ?_⟩
    · obtain ⟨declaration, -, -, declares⟩ := compiles.declared member
      cases declares with
      | primitive _ _ taken => exact Options.lawful_of_read taken
      | object _ _ _ taken => exact Options.lawful_of_read taken
    · obtain ⟨declaration, -, -, declares⟩ := compiles.declared member
      cases declares with
      | object _ _ compiles _ => exact ih _ _ _ member compiles

theorem throughout_lawful_of_level {limit : Nat} {path : Path} {members : Members} {map : FieldMap}
    (complete : Field.level limit path (fun done => Field.readFields limit path done members) =
      .ok map) : map.Throughout Lawful := by
  induction map using FieldMap.induction generalizing path members with
  | step map ih =>
    obtain ⟨-, read, -⟩ := Field.level_eq_ok_iff.mp complete
    have written {name : String} {field : Field} (member : (name, field) ∈ map) :
        ∃ value, Field.Written limit path name value field := by
      rcases Field.mem_readFields read member with old | ⟨value, -, written⟩
      · cases old
      · exact ⟨value, written⟩
    refine throughout_iff.mpr ⟨fun name field member => ?_, fun name inner traits member => ?_⟩
    · obtain ⟨value, entry, required, type, -, -, -, ofType⟩ := written member
      cases ofType with
      | primitive _ taken => exact Options.lawful_of_read taken
      | object _ taken => exact Options.lawful_of_read taken
    · obtain ⟨value, entry, required, type, -, -, -, ofType⟩ := written member
      cases ofType with
      | object nested _ => exact ih _ _ _ member nested

end FieldMap

/-- However a schema is written, the options of every field obey the rules of its type. -/
theorem Source.normalizeValue_lawful {settings : Settings} {schema : Json} {map : FieldMap}
    (complete : normalizeValue settings schema = .ok map) : map.Throughout FieldMap.Lawful := by
  obtain ⟨members, rfl, read⟩ := normalizeValue_eq_ok_iff.mp complete
  split at read
  · exact FieldMap.throughout_lawful_of_level read
  · obtain ⟨others, compiles⟩ := read
    exact FieldMap.throughout_lawful_of_compiles compiles

namespace Field

/-- What is written of a field: its type, whether it is required, and its options. -/
def writtenEntry (type : Json) (traits : Traits) : Members :=
  (Key.type, type) :: (Key.required, .bool traits.required) ::
    Options.written (traits.options, traits.isArray)

section

variable {type : Option Primitive} {traits : Traits} (typed : Options.Typed type traits.options)

include typed

theorem distinct_writtenEntry (written : Json) : Entries.Distinct (writtenEntry written traits) := by
  refine List.nodup_cons.mpr
    ⟨fun member => ?_, List.nodup_cons.mpr ⟨typed.own_not_written (.inr rfl), typed.distinct_written⟩⟩
  rcases List.mem_cons.mp member with same | member
  · exact absurd (show Key.type = Key.required from same) (by decide)
  · exact typed.own_not_written (.inl rfl) member

theorem entry_eq_written (written : Json) :
    entry written traits = .object (writtenEntry written traits) := by
  have joined : writtenEntry written traits =
      ([(Key.type, written), (Key.required, .bool traits.required)] ++
        if traits.isArray then [(Key.array, .bool true)] else []) ++
      (traits.options.known ++ traits.options.extra) := by
    rw [List.append_assoc]
    rfl
  rw [entry, Options.writeTo, Entries.foldl_set_of_distinct, ← joined]
  exact joined ▸ distinct_writtenEntry typed written

theorem optionEntries_writtenEntry (written : Json) :
    optionEntries (writtenEntry written traits) =
      Options.written (traits.options, traits.isArray) := by
  have kept : optionEntries (Options.written (traits.options, traits.isArray)) =
      Options.written (traits.options, traits.isArray) := by
    refine List.filter_eq_self.mpr fun entry member => ?_
    have others (own : entry.1 = Key.type ∨ entry.1 = Key.required) : False :=
      typed.own_not_written own (List.mem_map_of_mem member)
    simpa [not_or] using others
  exact kept

end

theorem toValue_eq_written {field : Field} (lawful : field.Lawful) :
    ∃ type, field.toValue = .object (writtenEntry type field.traits) := by
  cases field with
  | primitive type traits => exact ⟨_, entry_eq_written lawful.typed (.string type.name)⟩
  | object fields traits => exact ⟨_, entry_eq_written lawful.typed (.object (toMembers fields))⟩

theorem toMembers_eq_map (fields : FieldMap) :
    toMembers fields = fields.map fun (name, field) => (name, field.toValue) := by
  induction fields with
  | nil => rfl
  | cons entry rest ih => rw [toMembers, ih, List.map_cons]

theorem isWrittenForm_toMembers {map : FieldMap} (lawful : map.Throughout FieldMap.Lawful) :
    FieldMap.isWrittenForm (toMembers map) = true := by
  rw [FieldMap.isWrittenForm, toMembers_eq_map, List.all_map, List.all_eq_true]
  rintro ⟨name, field⟩ member
  have obeys := (FieldMap.throughout_iff.mp lawful).1 name field member
  obtain ⟨type, written⟩ := toValue_eq_written obeys
  simp only [Function.comp, written]
  rfl

variable {limit : Nat} {path : Path}

/-- What is written of the fields of a map is read as these fields. -/
theorem level_toMembers {map : FieldMap} (sound : map.Everywhere (FieldMap.Sound limit) path.depth)
    (lawful : map.Throughout FieldMap.Lawful) :
    level limit path (fun done => readFields limit path done (toMembers map)) = .ok map := by
  induction map using FieldMap.induction generalizing path with
  | step map ih =>
    obtain ⟨⟨shallow, distinct, resolved⟩, soundBelow⟩ := FieldMap.everywhere_iff.mp sound
    obtain ⟨lawfulHere, lawfulBelow⟩ := FieldMap.throughout_iff.mp lawful
    have names : (Entries.names FieldMap.empty ++ Entries.names (toMembers map)).Nodup := by
      have same : Entries.names (toMembers map) = Entries.names map := by
        simp [toMembers_eq_map, Function.comp_def]
      rw [same]
      exact distinct
    refine level_eq_ok_iff.mpr ⟨shallow, (readFields_eq_ok_iff names).mpr ⟨map, rfl, ?_⟩, resolved⟩
    rw [toMembers_eq_map, List.forall₂_map_left_iff, List.forall₂_same]
    rintro ⟨name, field⟩ member
    refine ⟨rfl, ?_⟩
    have obeys := lawfulHere name field member
    have readBack (written : Json) : Options.read field.type?
        (optionEntries (writtenEntry written field.traits)) = .ok (field.options, field.isArray) := by
      rw [optionEntries_writtenEntry obeys.typed]
      exact Options.read_written obeys
    cases field with
    | primitive type traits =>
      refine ⟨_, traits.required, .string type.name, entry_eq_written obeys.typed _, rfl, rfl, ?_⟩
      exact .primitive (Tag.parse?_eq_some_iff.mpr rfl) (readBack _)
    | object inner traits =>
      have nested := @ih name inner traits member (path.child name)
        (Path.depth_child path name ▸ soundBelow name inner traits member)
        (lawfulBelow name inner traits member)
      refine ⟨_, traits.required, .object (toMembers inner), entry_eq_written obeys.typed _, rfl,
        rfl, ?_⟩
      exact .object nested (readBack _)

end Field

/-- Normalizing is idempotent, by way of what is written of a map: that is read as the same map, in
the order and with the options, required or not, that it has at every level. -/
theorem Source.normalizeValue_toValue {settings : Settings} {schema : Json} {map : FieldMap}
    (complete : normalizeValue settings schema = .ok map) :
    normalizeValue settings map.toValue = .ok map := by
  have sound := normalizeValue_sound complete
  have lawful := normalizeValue_lawful complete
  refine normalizeValue_eq_ok_iff.mpr ⟨_, rfl, ?_⟩
  rw [if_pos (Field.isWrittenForm_toMembers lawful)]
  exact @Field.level_toMembers _ .root _ sound lawful

/-- Fields that are called as the words of the layout are, one of them declared again, with one
reference and with several, a default for an array and options that the language does not know. -/
theorem Source.normalizeValue_toValue_of_layout_words :
    let settings : Settings := ⟨3, .lastWins, "_ref_"⟩
    let schema : Json := .object
      [("optional", .object [("string", .object
          [("required", .object [("default", .array [.string "a"]), ("array", .bool true)]),
            ("type", .object [])])]),
        ("required", .object [("object", .object [("type", .object
          [("note", .null), ("optional", .object [("number", .object
            [("low", .object []), ("high", .object [("greaterOrEqualTo", .array [.string "low"])]),
              ("both", .object [("greaterOrEqualTo", .array [.string "low", .string "high"])])])]),
            ("hint", .bool false)])])])]
    let required : Traits := ⟨false, true, { Options.empty with default := some (.array [.string "a"]) }⟩
    let low : Traits := ⟨false, false, .empty⟩
    let high : Traits := ⟨false, false, { Options.empty with atLeast := some ["low"] }⟩
    let both : Traits := ⟨false, false, { Options.empty with atLeast := some ["low", "high"] }⟩
    let type : Traits := ⟨true, false, { Options.empty with extra := [("note", .null), ("hint", .bool false)] }⟩
    let map : FieldMap := [("required", .primitive .string required), ("type", .object
      [("low", .primitive .number low), ("high", .primitive .number high),
        ("both", .primitive .number both)] type)]
    normalizeValue settings schema = .ok map ∧ normalizeValue settings map.toValue = .ok map := by
  intro settings schema required low high both type map
  have complete : normalizeValue settings schema = .ok map := rfl
  exact ⟨complete, normalizeValue_toValue complete⟩

end FieldSchema
