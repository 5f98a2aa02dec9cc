import FieldSchema.Proofs.DataFaults
import FieldSchema.Proofs.Violations
import FieldSchema.Proofs.WellFormed

/-! Faults are true where they point. The path of a fault leads from the root of the document to an
object, and by its names to the fields that are declared of this object; there the fault has grounds.
An audit looks at one object at a time, so whatever it lists it finds in one of the objects that it
reaches. -/
namespace FieldSchema

/-- Where a path leads: a name to a member of an object, an index to an element of an array. -/
def Json.follow : Json → Path → Option Json
  | value, [] => some value
  | .object members, .member name :: rest => (members.lookup name).bind fun value => follow value rest
  | .array items, .element i :: rest => items[i]?.bind fun item => follow item rest
  | _, _ :: _ => none

/-- The fields of the objects to which a path leads, which only the names on it tell apart. -/
def FieldMap.follow : FieldMap → Path → Option FieldMap
  | map, [] => some map
  | map, .element _ :: rest => FieldMap.follow map rest
  | map, .member name :: rest =>
    match map.get? name with
    | some (.object inner _) => FieldMap.follow inner rest
    | _ => none

/-- Whether a value has the type of a field, but for being an array. -/
def Field.holds : Field → Json → Bool
  | .primitive type _, value => type.holds value
  | .object .., value => value.object?.isSome

/-- What is given for a field, or an element of it, does not have the type that was expected. -/
inductive Field.Mistyped (field : Field) (given : Json) : Json → String → Prop where
  | whole : field.isArray = true → given.array? = none → Mistyped field given given field.label
  | part {value : Json} : value ∈ given.valuesIn field.isArray → field.holds value = false →
    Mistyped field given value field.base

/-- An object holds `given` for a field that is declared of it. -/
structure Level.Gives (level : Level) (name : String) (field : Field) (given : Json) : Prop where
  declared : level.fields.get? name = some field
  held : level.members.lookup name = some given

/-- What is declared of an object and what the object holds are at odds, in the way that the fault
says. -/
inductive Fault.Grounded (level : Level) : Fault → Prop where
  | missing {name : String} {field : Field} : level.fields.get? name = some field →
    field.required = true → level.members.lookup name = none →
      Grounded level (.missingField name level.path)
  | mistyped {name : String} {field : Field} {given value : Json} {expected : String} :
    level.Gives name field given → field.Mistyped given value expected →
      Grounded level (.typeMismatch name level.path value.compact expected)
  | notAllowed {name s : String} {field : Field} {given : Json} {allowed : List String} :
    level.Gives name field given → .string s ∈ given.valuesIn field.isArray →
      field.options.allowed = some allowed → s ∉ allowed →
        Grounded level (.notAllowed name level.path (Json.string s).compact allowed)
  | wrongLength {name s : String} {field : Field} {given : Json} {bound : Rule.Limit} :
    level.Gives name field given → .string s ∈ given.valuesIn field.isArray →
      bound ∈ Rule.limits field.options → bound.rule.fits bound.limit.toNat s = false →
        Grounded level (.ruleBroken name level.path bound.rule.key bound.limitValue.compact
          (Json.string s).compact bound.rule.message)
  | tooSmall {name : String} {field : Field} {references : List String} :
    level.fields.get? name = some field → field.options.atLeast = some references →
      (Rule.Cross.atLeast.bind (name :: references)).admits level.members = false →
        Grounded level (.crossRuleBroken level.path (name :: references) Rule.Cross.atLeast.message)

namespace Place

variable {place : Place} {given : Json} {fault : Fault}

theorem mem_valueFaults {each : Json → List Fault} (member : fault ∈ place.valueFaults each given) :
    (∃ value expected, place.field.Mistyped given value expected ∧
      fault = place.mismatch value expected) ∨
    ∃ value ∈ given.valuesIn place.field.isArray, fault ∈ each value := by
  rcases mem_orFault_iff.mp member with failed | ⟨found, read, member⟩
  · obtain ⟨isArray, noArray, rfl⟩ := found_eq_error failed
    exact .inl ⟨_, _, .whole isArray noArray, rfl⟩
  · rw [values_eq_valuesIn read] at member
    obtain ⟨value, part, member⟩ := List.mem_flatMap.mp member
    exact .inr ⟨value, part, member⟩

/-- The faults of an object field are of its form, or are found in one of the objects in it. -/
theorem mem_objectFaults {name : String} {path : Path} {fields : FieldMap} {traits : Traits}
    {inner : Path → Members → List Fault}
    (member : fault ∈ objectFaults ⟨name, path, .object fields traits⟩ inner given) :
    (∃ value expected, (Field.object fields traits).Mistyped given value expected ∧
      fault = .typeMismatch name path value.compact expected) ∨
    ∃ here members, Holds ⟨name, path, .object fields traits⟩ given here members ∧
      fault ∈ inner here members := by
  unfold objectFaults at member
  dsimp only at member
  split at member
  · next isArray =>
    rcases mem_orFault_iff.mp member with failed | ⟨items, read, member⟩
    · obtain ⟨noArray, rfl⟩ := elements_eq_error failed
      exact .inl ⟨_, _, .whole isArray noArray, rfl⟩
    cases elements_eq_ok read
    obtain ⟨⟨item, i⟩, listed, member⟩ := List.mem_flatMap.mp member
    rcases mem_orFault_iff.mp member with failed | ⟨members, read, member⟩
    · obtain ⟨noObject, rfl⟩ := members_eq_error failed
      have part : item ∈ (Json.array items).valuesIn (Field.object fields traits).isArray := by
        rw [isArray]
        exact List.mem_of_getElem? (List.mem_zipIdx_iff_getElem?.mp listed)
      exact .inl ⟨_, _, .part part (by rw [Field.holds, noObject]; rfl), rfl⟩
    · exact .inr ⟨_, _, element_holds isArray listed read, member⟩
  · next single =>
    have single : (Field.object fields traits).isArray = false := by simpa using single
    rcases mem_orFault_iff.mp member with failed | ⟨members, read, member⟩
    · obtain ⟨noObject, rfl⟩ := members_eq_error failed
      have part : given ∈ given.valuesIn (Field.object fields traits).isArray := by
        rw [single]
        exact List.mem_singleton_self _
      exact .inl ⟨_, _, .part part (by rw [Field.holds, noObject]; rfl), rfl⟩
    · exact .inr ⟨_, _, single_holds single read, member⟩

end Place

namespace Audit

/-- What an audit finds in an object itself: fields that are missing, or that do not have the form
that is declared, what it looks for in the values of the others, and in the object as a whole. -/
inductive Finds (audit : Audit) (level : Level) : Fault → Prop where
  | missing {name : String} {field : Field} : (name, field) ∈ level.fields →
    field.required = true → level.members.lookup name = none →
      Finds audit level (.missingField name level.path)
  | mistyped {name : String} {field : Field} {given value : Json} {expected : String} :
    (name, field) ∈ level.fields → level.members.lookup name = some given →
      field.Mistyped given value expected →
        Finds audit level (.typeMismatch name level.path value.compact expected)
  | value {name : String} {type : Primitive} {traits : Traits} {given value : Json} {fault : Fault} :
    (name, .primitive type traits) ∈ level.fields → level.members.lookup name = some given →
      value ∈ given.valuesIn traits.isArray →
        fault ∈ audit.value ⟨name, level.path, .primitive type traits⟩ value →
          Finds audit level fault
  | whole {fault : Fault} : fault ∈ audit.object level → Finds audit level fault

theorem mem_of_mem_close {audit : Audit} {fields own : List Fault} {fault : Fault}
    (member : fault ∈ audit.close fields own) : fault ∈ fields ∨ fault ∈ own := by
  unfold close at member
  split at member
  · exact .inr member
  · exact List.mem_append.mp member

/-- All that an audit lists it finds in an object that it reaches. -/
theorem finds_of_mem_level {audit : Audit} {level : Level} {fault : Fault}
    (member : fault ∈ audit.level level) : ∃ last, level.Reaches last ∧ audit.Finds last fault := by
  obtain ⟨path, members, fields⟩ := level
  induction fields using FieldMap.induction generalizing path members with
  | step fields ih =>
    rcases mem_of_mem_close member with member | own
    · rw [fields_eq_flatMap] at member
      obtain ⟨⟨name, field⟩, declared, member⟩ := List.mem_flatMap.mp member
      dsimp only [Audit.entry] at member
      cases given : members.lookup name with
      | none =>
        simp only [given] at member
        split at member
        · next required =>
          cases List.mem_singleton.mp member
          exact ⟨_, .here, .missing declared required given⟩
        · cases member
      | some value =>
        simp only [given] at member
        cases field with
        | primitive type traits =>
          rw [Audit.field] at member
          rcases Place.mem_valueFaults member with ⟨_, _, mistyped, rfl⟩ | ⟨part, inside, member⟩
          · exact ⟨_, .here, .mistyped declared given mistyped⟩
          · exact ⟨_, .here, .value declared given inside member⟩
        | object inner traits =>
          rw [Audit.field] at member
          rcases Place.mem_objectFaults member with
            ⟨_, _, mistyped, rfl⟩ | ⟨here, below, holds, member⟩
          · exact ⟨_, .here, .mistyped declared given mistyped⟩
          · obtain ⟨last, reaches, finds⟩ := ih name inner traits declared here below member
            exact ⟨last, .inside declared given holds reaches, finds⟩
    · exact ⟨_, .here, .whole own⟩

end Audit

/-- The path of an object that is reached leads to it, and to the fields that are declared of it. -/
theorem Level.Reaches.follow {level last : Level} (reaches : level.Reaches last)
    (distinct : level.fields.Throughout Entries.Distinct) : ∃ path, last.path = level.path ++ path ∧
      (Json.object level.members).follow path = some (.object last.members) ∧
      level.fields.follow path = some last.fields := by
  induction reaches with
  | here => exact ⟨[], (List.append_nil _).symm, rfl, rfl⟩
  | @inside level last name inner traits value path members member found holds _ ih =>
    obtain ⟨distinct, below⟩ := FieldMap.throughout_iff.mp distinct
    obtain ⟨rest, same, leads, declared⟩ := ih (below name inner traits member)
    have listed : level.fields.get? name = some (.object inner traits) :=
      (Entries.lookup_eq_some_iff distinct).mpr member
    cases holds with
    | single =>
      refine ⟨.member name :: rest, ?_, ?_, ?_⟩
      · rw [same, Path.child, List.append_assoc]
        rfl
      · rw [Json.follow, found]
        exact leads
      · rw [FieldMap.follow, listed]
        exact declared
    | @element items _ i _ there =>
      refine ⟨.member name :: .element i :: rest, ?_, ?_, ?_⟩
      · rw [same, Path.element, Path.child, List.append_assoc, List.append_assoc]
        rfl
      · rw [Json.follow, found, Option.bind_some, Json.follow, there]
        exact leads
      · rw [FieldMap.follow, listed]
        exact declared

theorem Primitive.string_holds_iff {value : Json} :
    Primitive.string.holds value = true ↔ ∃ s, value = .string s := by
  cases value <;> simp [Primitive.holds]

namespace Fault.Grounded

variable {level : Level} {name : String} {type : Primitive} {traits : Traits} {given value : Json}
  {fault : Fault}

/-- What is found in a value of a primitive field has grounds: only strings have limits, and only they
are chosen from a list. -/
theorem of_value (wellFormed : level.fields.WellFormed)
    (declared : (name, .primitive type traits) ∈ level.fields)
    (held : level.members.lookup name = some given) (part : value ∈ given.valuesIn traits.isArray)
    (member : fault ∈ Entry.primitiveFaults name level.path type (ObjectSchema.primitiveTraits traits)
      value) : fault.Grounded level := by
  have gives : level.Gives name (.primitive type traits) given :=
    ⟨(Entries.lookup_eq_some_iff wellFormed.distinct).mpr declared, held⟩
  have isString (constrained : traits.options.allowed.isSome ∨ traits.options.maxLength.isSome ∨
      traits.options.exactLength.isSome) (typed : type.holds value = true) :
      ∃ s, value = .string s := by
    obtain ⟨_, same⟩ := (wellFormed.fields _ _ declared).ofString constrained
    cases same
    exact Primitive.string_holds_iff.mp typed
  rcases Entry.mem_primitiveFaults_iff.mp member with
    ⟨mistyped, rfl⟩ | ⟨typed, ⟨allowed, some, refused, rfl⟩ | ⟨bound, listed, refused, rfl⟩⟩
  · exact .mistyped gives (.part part mistyped)
  · obtain ⟨s, rfl⟩ := isString (.inl (Option.isSome_of_mem some)) typed
    exact .notAllowed gives part some (by simpa [Rule.isAllowed, Json.string?] using refused)
  · have limited : traits.options.maxLength.isSome ∨ traits.options.exactLength.isSome := by
      have listed : bound ∈ Rule.limits traits.options := listed
      cases longest : traits.options.maxLength <;> cases exact : traits.options.exactLength <;>
        simp [Rule.limits, longest, exact] at listed ⊢
    obtain ⟨s, rfl⟩ := isString (.inr limited) typed
    refine .wrongLength gives part listed ?_
    rwa [Rule.Limit.admits_eq] at refused

/-- A rule between fields that an object breaks is declared of one of its fields. -/
theorem of_broken {field : Field} (distinct : Entries.Distinct level.fields)
    (declared : (name, field) ∈ level.fields) (broken : fault ∈ level.broken name field) :
    fault.Grounded level := by
  obtain ⟨check, rule, refused, rfl⟩ := Level.mem_broken_iff.mp broken
  obtain ⟨type, traits, references, rfl, some, rfl⟩ := Field.mem_checks_iff.mp rule
  exact .tooSmall ((Entries.lookup_eq_some_iff distinct).mpr declared) some refused

end Fault.Grounded

namespace Audit

/-- Audits that look for the rules of values, and in objects for those between fields. -/
structure Ruled (audit : Audit) : Prop where
  values : audit.value = plain.value
  objects : ∀ level, ∀ fault ∈ audit.object level, ∃ name field, (name, field) ∈ level.fields ∧
    fault ∈ level.broken name field

theorem checked_ruled : checked.Ruled := by
  refine ⟨rfl, fun level fault member => ?_⟩
  obtain ⟨⟨name, field⟩, declared, member⟩ := List.mem_flatMap.mp member
  dsimp only at member
  split at member
  · exact ⟨name, field, declared, member⟩
  · cases member

theorem hooked_ruled : hooked.Ruled := by
  refine ⟨rfl, fun level fault member => ?_⟩
  obtain ⟨⟨name, field⟩, declared, member⟩ := List.mem_flatMap.mp (List.mem_of_mem_take member)
  exact ⟨name, field, declared, member⟩

theorem Finds.grounded {audit : Audit} {level : Level} {fault : Fault} (finds : audit.Finds level fault)
    (ruled : audit.Ruled) (wellFormed : level.fields.WellFormed) : fault.Grounded level := by
  have listed {name : String} {field : Field} (declared : (name, field) ∈ level.fields) :
      level.fields.get? name = some field :=
    (Entries.lookup_eq_some_iff wellFormed.distinct).mpr declared
  cases finds with
  | missing declared required absent => exact .missing (listed declared) required absent
  | mistyped declared held mistyped => exact .mistyped ⟨listed declared, held⟩ mistyped
  | value declared held part member =>
    rw [ruled.values] at member
    exact .of_value wellFormed declared held part member
  | whole member =>
    obtain ⟨name, field, declared, broken⟩ := ruled.objects level fault member
    exact .of_broken wellFormed.distinct declared broken

/-- What such an audit lists has grounds in the object to which its path leads. -/
theorem grounded_of_mem {audit : Audit} (ruled : audit.Ruled) {map : FieldMap}
    (wellFormed : map.Throughout FieldMap.WellFormed) {members : Members} {fault : Fault}
    (member : fault ∈ audit.document map (.object members)) : ∃ level,
      (Json.object members).follow level.path = some (.object level.members) ∧
        map.follow level.path = some level.fields ∧ fault.Grounded level := by
  obtain ⟨last, reaches, finds⟩ := finds_of_mem_level member
  obtain ⟨path, same, leads, declared⟩ :=
    reaches.follow fun path inner nested => (wellFormed path inner nested).distinct
  obtain ⟨_, nested, -⟩ := reaches.nested
  have same : last.path = path := same
  subst same
  exact ⟨last, leads, declared, finds.grounded ruled (wellFormed _ _ nested)⟩

end Audit

/-- Every fault is true where it points. Whether validating extraction ends with it or the object
schema reports it, its path leads from the root of the document to an object, and through the map to the
fields that are declared of this object, and there the fault has grounds. -/
theorem every_fault_grounded {settings : Settings} {schema : Json} {map : FieldMap}
    (complete : Source.normalizeValue settings schema = .ok map) (members : Members) :
    ∃ built, ObjectSchema.ofMap settings map = .ok built ∧ ∀ fault,
      extractValid settings map (.object members) = .error fault ∨
        fault ∈ (built.validate (.object members)).faults →
      ∃ level, (Json.object members).follow level.path = some (.object level.members) ∧
        map.follow level.path = some level.fields ∧ fault.Grounded level := by
  have sound := Source.normalizeValue_sound complete
  have fits := FieldMap.fits_of_sound sound
  have wellFormed : map.Throughout FieldMap.WellFormed := fun path inner nested =>
    FieldMap.wellFormed_iff.mpr ⟨FieldMap.distinct_of_sound sound path inner nested,
      FieldMap.resolved_of_sound sound path inner nested,
      Source.normalizeValue_lawful complete path inner nested⟩
  refine ⟨_, ObjectSchema.ofMap_eq_ok_iff.mpr ⟨fits, rfl⟩, fun fault found => ?_⟩
  rcases found with ended | reported
  · rw [extractValid_eq_of_resolved fits (FieldMap.distinct_of_sound sound)
      (FieldMap.resolved_of_sound sound), failFast_eq_error_iff] at ended
    refine Audit.grounded_of_mem Audit.checked_ruled wellFormed ?_
    rcases List.mem_append.mp (List.mem_of_mem_head? ended) with form | rule
    · rw [← Audit.filter_checked] at form
      exact List.mem_of_mem_filter form
    · exact rule
  · refine Audit.grounded_of_mem Audit.hooked_ruled wellFormed ?_
    rwa [← ObjectSchema.faults_ofFields, ← ObjectSchema.faults_validate]

/-- A string in the second of the rows is not allowed, and too long. -/
theorem every_fault_grounded_of_rows :
    let schema : Json := .object [("required", .object [("object", .object [("rows", .object
      [("array", .bool true), ("required", .object [("string", .object [("code", .object
        [("enum", .strings ["x", "y"]), ("maxLength", .natural 2)])])])])])])]
    let members : Members := [("other", .null), ("rows", .array
      [.object [("code", .string "x")], .object [("code", .string "zzz")]])]
    let path : Path := (Path.root.child "rows").element 1
    let refused : Fault := .notAllowed "code" path "\"zzz\"" ["x", "y"]
    let long : Fault := .ruleBroken "code" path "maxLength" "2" "\"zzz\"" "This string field is too long"
    ∃ map built, Source.normalizeValue .standard schema = .ok map ∧
      ObjectSchema.ofMap .standard map = .ok built ∧
      extractValid .standard map (.object members) = .error refused ∧
      (built.validate (.object members)).faults = [refused, long] ∧
      ∀ fault ∈ [refused, long], ∃ level,
        (Json.object members).follow level.path = some (.object level.members) ∧
          map.follow level.path = some level.fields ∧ fault.Grounded level := by
  intro schema members path refused long
  obtain ⟨map, complete⟩ : ∃ map, Source.normalizeValue .standard schema = .ok map := ⟨_, rfl⟩
  obtain ⟨built, made, grounded⟩ := every_fault_grounded complete members
  have ended : extractValid .standard map (.object members) = .error refused := by
    cases complete
    rfl
  have reported : (built.validate (.object members)).faults = [refused, long] := by
    cases complete
    cases made
    rfl
  refine ⟨map, built, complete, made, ended, reported, fun fault listed => grounded fault (.inr ?_)⟩
  rwa [reported]

end FieldSchema
