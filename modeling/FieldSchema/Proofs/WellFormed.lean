import FieldSchema.Proofs.RoundTrip

/-! Which maps normalization returns. Every object in such a map is well formed: its names are
distinct, its references name numbers beside them, and no field has an option that its type does
not take. And every map of this kind is returned, if the guard lets it pass. -/
namespace FieldSchema

/-- A value of the type, or an array of such values. -/
def Primitive.Takes (type : Primitive) (isArray : Bool) (value : Json) : Prop :=
  if isArray then ∃ items, value = .array items ∧ ∀ item ∈ items, type.holds item = true
  else type.holds value = true

/-- The options of a field fit its type and the other fields of `map`. -/
structure Field.WellFormed (map : FieldMap) (field : Field) : Prop where
  ofString : field.options.allowed.isSome ∨ field.options.maxLength.isSome ∨
    field.options.exactLength.isSome → ∃ traits, field = .primitive .string traits
  ofNumber : field.options.atLeast.isSome → ∃ traits, field = .primitive .number traits
  /-- There is a reference, and each is to a number of the same object. -/
  references : ∀ names, field.options.atLeast = some names → names ≠ [] ∧
    ∀ name ∈ names, ∃ traits, map.get? name = some (.primitive .number traits)
  default : ∀ value, field.options.default = some value →
    ∃ type traits, field = .primitive type traits ∧ type.Takes traits.isArray value
  /-- The other options are each there once, under keys that the language does not use. -/
  others : Entries.Distinct field.options.extra ∧
    ∀ key ∈ Entries.names field.options.extra, key ∉ Options.reservedKeys

structure FieldMap.WellFormed (map : FieldMap) : Prop where
  distinct : Entries.Distinct map
  fields : ∀ name field, (name, field) ∈ map → field.WellFormed map

theorem Options.suits_eq_true_iff {type : Option Primitive} {isArray : Bool} {value : Json} :
    suits type isArray value = true ↔
      ∃ primitive, type = some primitive ∧ primitive.Takes isArray value := by
  unfold suits Primitive.Takes
  cases type with
  | none => simp
  | some primitive =>
    cases isArray with
    | false => simp
    | true => cases value <;> simp [Json.array?]

namespace Field

theorem type?_eq_some_iff {field : Field} {type : Primitive} :
    field.type? = some type ↔ ∃ traits, field = .primitive type traits := by
  cases field with
  | primitive other traits => simp [type?]
  | object inner traits => simp [type?]

theorem isNumber_iff {field : Field} :
    field.isNumber = true ↔ ∃ traits, field = .primitive .number traits := by
  cases field with
  | primitive type traits => cases type <;> simp [isNumber]
  | object inner traits => simp [isNumber]

/-- A default suits a field exactly if the field is a primitive one whose type takes it. -/
theorem defaultSuits_iff {field : Field} :
    Options.DefaultSuits field.type? (field.options, field.isArray) ↔
      ∀ value, field.options.default = some value →
        ∃ type traits, field = .primitive type traits ∧ type.Takes traits.isArray value := by
  refine forall_congr' fun value => imp_congr_right fun _ => ?_
  rw [Options.suits_eq_true_iff]
  cases field with
  | primitive type traits => simp [type?, isArray, Field.traits]
  | object inner traits => simp [type?]

theorem resolved_iff {map : FieldMap} {names : List String} :
    (∀ name ∈ names, map.badReference? name = none) ↔
      ∀ name ∈ names, ∃ traits, map.get? name = some (.primitive .number traits) := by
  refine forall_congr' fun name => imp_congr_right fun _ => ?_
  simp only [FieldMap.badReference?_eq_none_iff, isNumber_iff]
  constructor
  · rintro ⟨_, found, traits, rfl⟩
    exact ⟨traits, found⟩
  · rintro ⟨traits, found⟩
    exact ⟨_, found, traits, rfl⟩

theorem wellFormed_iff {map : FieldMap} {field : Field} :
    field.WellFormed map ↔ field.Lawful ∧
      ∀ name ∈ field.options.atLeast.getD [], map.badReference? name = none := by
  constructor
  · rintro ⟨ofString, ofNumber, references, default, distinct, unreserved⟩
    refine ⟨⟨⟨fun allowed => ?_, fun maxLength => ?_, fun exactLength => ?_, fun atLeast => ?_,
      fun named => ?_, distinct, unreserved⟩, defaultSuits_iff.mpr default⟩, ?_⟩
    · exact type?_eq_some_iff.mpr (ofString (.inl (Option.isSome_iff_ne_none.mpr allowed)))
    · exact type?_eq_some_iff.mpr (ofString (.inr (.inl (Option.isSome_iff_ne_none.mpr maxLength))))
    · exact type?_eq_some_iff.mpr
        (ofString (.inr (.inr (Option.isSome_iff_ne_none.mpr exactLength))))
    · exact type?_eq_some_iff.mpr (ofNumber (Option.isSome_iff_ne_none.mpr atLeast))
    · exact (references [] named).1 rfl
    · rw [resolved_iff]
      cases declared : field.options.atLeast with
      | none => simp
      | some names => exact (references names declared).2
  · rintro ⟨⟨typed, suited⟩, resolved⟩
    refine ⟨fun declared => type?_eq_some_iff.mp ?_, fun declared => type?_eq_some_iff.mp ?_,
      fun names declared => ⟨?_, ?_⟩, defaultSuits_iff.mp suited, typed.distinct, typed.unreserved⟩
    · rcases declared with allowed | maxLength | exactLength
      · exact typed.allowed (Option.isSome_iff_ne_none.mp allowed)
      · exact typed.maxLength (Option.isSome_iff_ne_none.mp maxLength)
      · exact typed.exactLength (Option.isSome_iff_ne_none.mp exactLength)
    · exact typed.atLeast (Option.isSome_iff_ne_none.mp declared)
    · rintro rfl
      exact typed.named declared
    · rw [declared, Option.getD_some, resolved_iff] at resolved
      exact resolved

end Field

namespace FieldMap

/-- Well-formed is what the readers of schemas ensure: `Source.normalizeValue_sound` and
`Source.normalizeValue_lawful`. -/
theorem wellFormed_iff {map : FieldMap} :
    map.WellFormed ↔ Entries.Distinct map ∧ map.Resolved ∧ map.Lawful := by
  constructor
  · rintro ⟨distinct, fields⟩
    exact ⟨distinct,
      fun name field member => (Field.wellFormed_iff.mp (fields name field member)).2,
      fun name field member => (Field.wellFormed_iff.mp (fields name field member)).1⟩
  · rintro ⟨distinct, resolved, lawful⟩
    exact ⟨distinct, fun name field member =>
      Field.wellFormed_iff.mpr ⟨lawful name field member, resolved name field member⟩⟩

end FieldMap

/-- Normalization returns a map, of some schema, exactly if every object in it is well formed and
the guard lets every object pass. -/
theorem Source.exists_normalizeValue_iff {settings : Settings} {map : FieldMap} :
    (∃ schema, normalizeValue settings schema = .ok map) ↔
      map.Fits settings.maxDepth 0 ∧ map.Throughout FieldMap.WellFormed := by
  constructor
  · rintro ⟨schema, complete⟩
    have sound := normalizeValue_sound complete
    refine ⟨FieldMap.fits_of_sound sound, fun path inner nested => FieldMap.wellFormed_iff.mpr ?_⟩
    exact ⟨FieldMap.distinct_of_sound sound path inner nested,
      FieldMap.resolved_of_sound sound path inner nested,
      normalizeValue_lawful complete path inner nested⟩
  · rintro ⟨fits, wellFormed⟩
    have sound : map.Everywhere (FieldMap.Sound settings.maxDepth) 0 := fun path inner nested =>
      have ⟨distinct, resolved, _⟩ := FieldMap.wellFormed_iff.mp (wellFormed path inner nested)
      ⟨fits path inner nested, distinct, resolved⟩
    have lawful : map.Throughout FieldMap.Lawful := fun path inner nested =>
      (FieldMap.wellFormed_iff.mp (wellFormed path inner nested)).2.2
    refine ⟨map.toValue, normalizeValue_eq_ok_iff.mpr ⟨_, rfl, ?_⟩⟩
    rw [if_pos (Field.isWrittenForm_toMembers lawful)]
    exact @Field.level_toMembers _ .root _ sound lawful

/-- A number that another field refers to is declared again as a string, and the string counts. -/
example : Source.normalizeValue ⟨32, .lastWins, "_ref_"⟩ (.object
    [("required", .object [("number", .object
      [("low", .object []), ("high", .object [("greaterOrEqualTo", .string "low")])])]),
      ("optional", .object [("string", .object [("low", .object [])])])]) =
    .error (.malformedSchema .root (.badField "high" (.reference "string" "low"))) := rfl

end FieldSchema
