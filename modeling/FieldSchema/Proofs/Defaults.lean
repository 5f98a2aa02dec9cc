import FieldSchema.Proofs.Construct
import FieldSchema.Proofs.References
import FieldSchema.Proofs.SameDocument
import FieldSchema.Proofs.Violations
import FieldSchema.Proofs.WellFormed

/-! When the defaults of a valid document may be filled in. A default is of the type of its field,
but nothing else is asked of it when the schema is read. So a valid document is constructed exactly
if, in every object of it, the defaults of absent fields obey the rules of these fields; and where a
rule between fields has no row to look at, no default may give it one. -/
namespace FieldSchema

namespace Rule.CrossCheck

variable {check : CrossCheck} {members filled : Members}

/-- What a rule accepted for want of rows it still accepts if no array with elements is filled in;
what it accepted otherwise has nothing to be filled in. -/
theorem admits_filled_iff (policy : check.rule.policy = .fail)
    (admitted : check.admits members = true)
    (kept : ∀ name ∈ check.fields, ∀ value, members.lookup name = some value →
      filled.lookup name = some value) :
    check.admits filled = true ↔ ∀ name ∈ check.fields, members.lookup name = none →
      ∀ items, filled.lookup name = some (.array items) → items = [] := by
  by_cases complete : ∀ name ∈ check.fields, members.lookup name ≠ none
  · have same : check.admits filled = check.admits members := by
      refine admits_congr fun name listed => ?_
      obtain ⟨value, found⟩ := Option.ne_none_iff_exists'.mp (complete name listed)
      rw [found, kept name listed value found]
    rw [same]
    exact iff_of_true admitted fun name listed absent => absurd absent (complete name listed)
  · push Not at complete
    obtain ⟨absentee, listed, absent⟩ := complete
    have missing : present members absentee = none := by rw [present, absent]; rfl
    obtain ⟨⟨empty, among, found⟩, others⟩ :=
      (admits_iff_noRows policy ⟨absentee, listed, missing⟩).mp admitted
    have there := kept empty among _ found
    rw [admits_iff_rows]
    constructor
    · intro accepts name member absent items given
      by_contra nonempty
      have hasRow : HasRow filled check.fields 0 :=
        .inl ⟨name, member, items, given, List.length_pos_iff.mpr nonempty⟩
      have accepted := accepts 0 hasRow
      rw [Cross.Accepts, policy] at accepted
      refine accepted.1 (List.mem_map.mpr ⟨empty, among, ?_⟩)
      rw [held, there]
      rfl
    · intro unfilled i hasRow
      refine absurd ⟨⟨empty, among, there⟩, fun name member items given => ?_⟩
        (hasRow_zero_iff.mp hasRow.first)
      cases before : members.lookup name with
      | none => exact unfilled name member before items given
      | some value =>
        rw [kept name member value before] at given
        cases given
        exact others name member items before

end Rule.CrossCheck

/-- Objects in a value are rewritten before they are looked at, or while they are. -/
theorem Place.objectFaults_mapObjects (place : Place) (inner : Path → Members → List Fault)
    (f : Members → Members) (value : Json) :
    place.objectFaults inner (value.mapObjects place.field.isArray f) =
      place.objectFaults (fun here members => inner here (f members)) value := by
  have single (here : Path) (item : Json) :
      orFault (place.members (item.mapMembers f)) (inner here) =
        orFault (place.members item) fun members => inner here (f members) := by
    cases item <;> rfl
  unfold objectFaults Json.mapObjects
  cases place.field.isArray with
  | false => exact single _ value
  | true =>
    cases value with
    | array items =>
      simp only [if_true, Place.elements, orFault_ok, List.zipIdx_map, List.flatMap_map]
      exact List.flatMap_congr fun entry _ => single _ entry.1
    | null | bool | number | string | object => rfl

/-- What the rules of a field ask of its value, beside its type. -/
def Traits.Admits (traits : Traits) (value : Json) : Prop :=
  ∀ item ∈ value.valuesIn traits.isArray,
    (∀ names, traits.options.allowed = some names → Rule.isAllowed names item = true) ∧
      ∀ limit ∈ Rule.limits traits.options, limit.admits item = true

namespace Level

/-- No rule between fields gets a row to look at from a value of the field `name`. -/
def Rowless (level : Level) (name : String) (value : Json) : Prop :=
  ∀ other field check, (other, field) ∈ level.fields → check ∈ field.checks other →
    name ∈ check.fields → ∀ items, value = .array items → items = []

/-- The default of every absent field may be filled in. -/
def TakesDefaults (level : Level) : Prop :=
  ∀ name type traits value, (name, Field.primitive type traits) ∈ level.fields →
    level.members.lookup name = none → traits.options.default = some value →
      traits.Admits value ∧ level.Rowless name value

/-- An object with its defaults, and those of all objects in it. -/
def filled (level : Level) : Level :=
  { level with members := Entry.fillFields level.members (Entry.ofFields level.fields) }

theorem lookup_filled_primitive {level : Level} {name : String} {type : Primitive} {traits : Traits}
    (distinct : Entries.Distinct level.fields)
    (member : (name, .primitive type traits) ∈ level.fields) :
    level.filled.members.lookup name =
      (level.members.lookup name).or traits.options.default := by
  refine (Entry.lookup_fillFields distinct level.members member).trans ?_
  unfold Field.filled
  cases level.members.lookup name <;> rfl

/-- What holds of every object that can be reached holds of the first, and of every object that can
be reached from those in it. -/
theorem forall_reaches_iff {P : Level → Prop} {level : Level} :
    (∀ last, level.Reaches last → P last) ↔ P level ∧ ∀ name inner traits value,
      (name, Field.object inner traits) ∈ level.fields → level.members.lookup name = some value →
        ∀ here members, Place.Holds ⟨name, level.path, .object inner traits⟩ value here members →
          ∀ last, Level.Reaches ⟨here, members, inner⟩ last → P last := by
  constructor
  · intro all
    refine ⟨all level .here, fun name inner traits value member found here members holds => ?_⟩
    exact fun last reaches => all last (.inside member found holds reaches)
  · rintro ⟨first, below⟩ last reaches
    cases reaches with
    | here => exact first
    | inside member found holds reaches => exact below _ _ _ _ member found _ _ holds last reaches

end Level

theorem Primitive.Takes.holds {type : Primitive} {isArray : Bool} {value : Json}
    (typed : type.Takes isArray value) : ∀ item ∈ value.valuesIn isArray, type.holds item = true := by
  unfold Takes at typed
  unfold Json.valuesIn
  split at typed
  · next array =>
    obtain ⟨items, rfl, each⟩ := typed
    rw [if_pos array]
    exact each
  · next single =>
    rw [if_neg single]
    exact List.forall_mem_singleton.mpr typed

theorem Place.found_of_takes {place : Place} {type : Primitive} {value : Json}
    (typed : type.Takes place.field.isArray value) :
    place.found value = .ok (.ofValue place.field.isArray value) := by
  unfold Primitive.Takes at typed
  unfold Place.found Found.ofValue
  split
  · next array =>
    rw [if_pos array] at typed
    obtain ⟨items, rfl, -⟩ := typed
    rfl
  · rfl

namespace Audit

variable {level : Level}

/-- A default of the right type has nothing wrong if it obeys the rules of its field. -/
theorem default_eq_nil_iff {name : String} {path : Path} {type : Primitive} {traits : Traits}
    {value : Json} (typed : type.Takes traits.isArray value) :
    hooked.field path name value (.primitive type traits) = [] ↔ traits.Admits value := by
  have read := @Place.found_of_takes ⟨name, path, .primitive type traits⟩ type value typed
  simp only [field, Place.valueFaults_eq_nil_iff, read, Except.ok.injEq, exists_eq_left',
    Found.values_ofValue, hooked, plain, primitiveFaults_eq_nil_iff]
  exact forall₂_congr fun item member => and_iff_right (typed.holds item member)

/-- With its defaults an object has nothing wrong in a primitive field if a default that was filled
in obeys the rules of the field. -/
theorem entry_filled_primitive_iff {name : String} {type : Primitive} {traits : Traits}
    (wellFormed : level.fields.WellFormed) (member : (name, .primitive type traits) ∈ level.fields)
    (faultless : hooked.entry level.path level.members name (.primitive type traits) = []) :
    hooked.entry level.path level.filled.members name (.primitive type traits) = [] ↔
      ∀ value, level.members.lookup name = none → traits.options.default = some value →
        traits.Admits value := by
  have found := Level.lookup_filled_primitive wellFormed.distinct member
  unfold entry at *
  rw [found]
  cases given : level.members.lookup name with
  | some value => simpa [given] using faultless
  | none =>
    rw [given] at faultless
    rw [Option.none_or]
    cases declared : traits.options.default with
    | none => simpa using faultless
    | some value =>
      obtain ⟨_, _, same, typed⟩ := (wellFormed.fields _ _ member).default value declared
      cases same
      simp [default_eq_nil_iff typed]

/-- With their defaults the objects in a field have nothing wrong if each of them has not. -/
theorem entry_filled_object_iff {name : String} {inner : FieldMap} {traits : Traits}
    (wellFormed : level.fields.WellFormed) (member : (name, .object inner traits) ∈ level.fields)
    (faultless : hooked.entry level.path level.members name (.object inner traits) = []) :
    hooked.entry level.path level.filled.members name (.object inner traits) = [] ↔
      ∀ value, level.members.lookup name = some value → ∀ here members,
        Place.Holds ⟨name, level.path, .object inner traits⟩ value here members →
          hooked.level (Level.filled ⟨here, members, inner⟩) = [] := by
  have found : level.filled.members.lookup name = Field.filled level.members name _ :=
    Entry.lookup_fillFields wellFormed.distinct level.members member
  unfold entry Field.filled at *
  rw [found]
  cases given : level.members.lookup name with
  | none => simpa [given, Entry.ofField, Entry.traits, ObjectSchema.objectTraits] using faultless
  | some value =>
    simp only [given, Audit.field] at faultless
    have form := (Place.objectFaults_eq_nil_iff.mp faultless).1
    have rewritten := Place.objectFaults_mapObjects ⟨name, level.path, .object inner traits⟩
      (fun here members => hooked.level ⟨here, members, inner⟩)
      (fun members => Entry.fillFields members (Entry.ofFields inner)) value
    simp only [Entry.fill_object, Audit.field]
    refine (Eq.congr_left rewritten).trans (Place.objectFaults_eq_nil_iff.trans ?_)
    simp [form, Level.filled]

/-- Rules between fields see the defaults of numbers, and nothing else that is filled in. -/
theorem object_filled_eq_nil_iff (wellFormed : level.fields.WellFormed)
    (faultless : hooked.object level = []) : hooked.object level.filled = [] ↔
      ∀ name type traits value, (name, Field.primitive type traits) ∈ level.fields →
        level.members.lookup name = none → traits.options.default = some value →
          level.Rowless name value := by
  have resolved := (FieldMap.wellFormed_iff.mp wellFormed).2.1
  have accepted {other : String} {field : Field} {check : Rule.CrossCheck}
      (member : (other, field) ∈ level.fields) (declared : check ∈ field.checks other) :
      check.admits level.filled.members = true ↔ ∀ name ∈ check.fields,
        level.members.lookup name = none →
          ∀ items, level.filled.members.lookup name = some (.array items) → items = [] := by
    refine Rule.CrossCheck.admits_filled_iff ?_ ?_ fun name listed value given => ?_
    · obtain ⟨_, _, _, -, -, rfl⟩ := Field.mem_checks_iff.mp declared
      rfl
    · exact broken_eq_nil_iff.mp (hooked_object_eq_nil_iff.mp faultless _ _ member) check declared
    · obtain ⟨type, traits, member⟩ := resolved.primitive_of_check member declared listed
      rw [Level.lookup_filled_primitive wellFormed.distinct member, given, Option.some_or]
  rw [hooked_object_eq_nil_iff]
  constructor
  · intro all name type traits value member absent default other field check among declared listed
      items same
    have admitted := broken_eq_nil_iff.mp (all other field among) check declared
    refine (accepted among declared).mp admitted name listed absent items ?_
    rw [Level.lookup_filled_primitive wellFormed.distinct member, absent, Option.none_or, default,
      same]
  · intro rowless other field among
    refine broken_eq_nil_iff.mpr fun check declared => ?_
    refine (accepted among declared).mpr fun name listed absent items given => ?_
    obtain ⟨type, traits, member⟩ := resolved.primitive_of_check among declared listed
    rw [Level.lookup_filled_primitive wellFormed.distinct member, absent, Option.none_or] at given
    exact rowless name type traits _ member absent given other field check among declared listed
      items rfl

/-- With its defaults an object has nothing wrong if they may be filled in, and no object in it has
with its own. -/
theorem filled_eq_nil_iff (wellFormed : level.fields.WellFormed)
    (faultless : hooked.level level = []) : hooked.level level.filled = [] ↔
      level.TakesDefaults ∧ ∀ name inner traits value,
        (name, Field.object inner traits) ∈ level.fields → level.members.lookup name = some value →
          ∀ here members, Place.Holds ⟨name, level.path, .object inner traits⟩ value here members →
            hooked.level (Level.filled ⟨here, members, inner⟩) = [] := by
  obtain ⟨own, entries⟩ := level_eq_nil_iff.mp faultless
  rw [level_eq_nil_iff, object_filled_eq_nil_iff wellFormed own]
  constructor
  · rintro ⟨rowless, each⟩
    constructor
    · intro name type traits value member absent default
      refine ⟨?_, rowless name type traits value member absent default⟩
      exact (entry_filled_primitive_iff wellFormed member (entries _ _ member)).mp
        (each _ _ member) value absent default
    · intro name inner traits value member
      exact (entry_filled_object_iff wellFormed member (entries _ _ member)).mp
        (each _ _ member) value
  · rintro ⟨takes, below⟩
    refine ⟨fun name type traits value member absent default =>
      (takes name type traits value member absent default).2, fun name field member => ?_⟩
    cases field with
    | primitive type traits =>
      refine (entry_filled_primitive_iff wellFormed member (entries _ _ member)).mpr ?_
      exact fun value absent default => (takes name type traits value member absent default).1
    | object inner traits =>
      refine (entry_filled_object_iff wellFormed member (entries _ _ member)).mpr ?_
      exact fun value => below name inner traits value member

theorem filled_eq_nil_iff_reaches (fields : FieldMap)
    (wellFormed : fields.Throughout FieldMap.WellFormed) {path : Path} {members : Members}
    (faultless : hooked.level ⟨path, members, fields⟩ = []) :
    hooked.level (Level.filled ⟨path, members, fields⟩) = [] ↔
      ∀ last, Level.Reaches ⟨path, members, fields⟩ last → last.TakesDefaults := by
  induction fields using FieldMap.induction generalizing path members with
  | step fields ih =>
    obtain ⟨here, below⟩ := FieldMap.throughout_iff.mp wellFormed
    rw [filled_eq_nil_iff here faultless, Level.forall_reaches_iff]
    refine and_congr_right fun _ => forall_congr' fun name => forall_congr' fun inner =>
      forall_congr' fun traits => forall_congr' fun value => imp_congr_right fun member =>
      imp_congr_right fun found => forall_congr' fun inside => forall_congr' fun held =>
      imp_congr_right fun holds => ih name inner traits member (below name inner traits member) ?_
    exact level_eq_nil_of_reaches faultless (.inside member found holds .here)

end Audit

/-- Every object in a map that normalization returns is well formed. -/
theorem FieldMap.wellFormed_of_normalizeValue {settings : Settings} {schema : Json} {map : FieldMap}
    (complete : Source.normalizeValue settings schema = .ok map) :
    map.Throughout FieldMap.WellFormed := by
  intro path inner nested
  have sound := Source.normalizeValue_sound complete
  exact wellFormed_iff.mpr ⟨distinct_of_sound sound path inner nested,
    resolved_of_sound sound path inner nested,
    Source.normalizeValue_lawful complete path inner nested⟩

namespace ObjectSchema

/-- From a valid document something is constructed exactly if, in every object of it that is
described, the defaults of absent fields may be filled in. -/
theorem construct_of_valid_iff {settings : Settings} {schema document : Json} {map : FieldMap}
    (complete : Source.normalizeValue settings schema = .ok map) :
    ∃ built, ofMap settings map = .ok built ∧ ((built.validate document).valid = true →
      ∃ members, document = .object members ∧ ((∃ result, built.construct document = .ok result) ↔
        ∀ level, Level.Reaches ⟨.root, members, map⟩ level → level.TakesDefaults)) := by
  have fits := FieldMap.fits_of_sound (Source.normalizeValue_sound complete)
  refine ⟨.ofFields map, ofMap_eq_ok_iff.mpr ⟨fits, rfl⟩, fun valid => ?_⟩
  obtain ⟨members, rfl, faultless⟩ :=
    Audit.document_eq_nil_iff.mp (validate_valid_iff.mp valid)
  refine ⟨members, rfl, ?_⟩
  rw [← Audit.filled_eq_nil_iff_reaches map (FieldMap.wellFormed_of_normalizeValue complete)
    faultless]
  constructor
  · rintro ⟨result, constructed⟩
    obtain ⟨_, same, rfl, accepted⟩ := construct_eq_ok_iff.mp constructed
    cases same
    exact validate_valid_iff.mp accepted
  · intro accepted
    exact ⟨_, construct_eq_ok_iff.mpr ⟨members, rfl, rfl, validate_valid_iff.mpr accepted⟩⟩

/-- Each row gets its unit, and an empty array for the number that is at least those in another. -/
theorem construct_of_valid_iff_of_rows :
    let schema : Json := .object [("required", .object [("object", .object
      [("rows", .object [("array", .bool true), ("optional", .object
        [("string", .object [("unit", .object
          [("enum", .strings ["kg", "g"]), ("default", .string "kg")])]),
        ("number", .object [("low", .object [("array", .bool true)]), ("high", .object
          [("array", .bool true), ("greaterOrEqualTo", .string "low"),
            ("default", .array [])])])])])])])]
    let document : Json := .object [("rows", .array
      [.object [("low", .array [])], .object [("low", .array []), ("unit", .string "g")]])]
    let result : Json := .object [("rows", .array
      [.object [("unit", .string "kg"), ("low", .array []), ("high", .array [])],
        .object [("unit", .string "g"), ("low", .array []), ("high", .array [])]])]
    ∃ map built, Source.normalizeValue .standard schema = .ok map ∧
      ofMap .standard map = .ok built ∧ (built.validate document).valid = true ∧
      built.construct document = .ok result ∧
      ∃ members, document = .object members ∧ ((∃ result, built.construct document = .ok result) ↔
        ∀ level, Level.Reaches ⟨.root, members, map⟩ level → level.TakesDefaults) := by
  intro schema document result
  obtain ⟨map, complete⟩ : ∃ map, Source.normalizeValue .standard schema = .ok map := ⟨_, rfl⟩
  obtain ⟨built, made, accepts⟩ := @construct_of_valid_iff .standard schema document map complete
  have valid : (built.validate document).valid = true := by
    cases complete
    cases made
    rfl
  have constructed : built.construct document = .ok result := by
    cases complete
    cases made
    rfl
  exact ⟨map, built, complete, made, valid, constructed, accepts valid⟩

/-- A default need not be allowed: the empty document is valid, and nothing is constructed from
it. -/
theorem construct_refuses_own_default :
    let schema : Json := .object [("optional", .object [("string", .object
      [("code", .object [("enum", .strings ["x"]), ("default", .string "y")])])])]
    ∃ map built, Source.normalizeValue .standard schema = .ok map ∧
      ofMap .standard map = .ok built ∧ (built.validate (.object [])).valid = true ∧
      built.construct (.object []) = .error (.single (.notAllowed "code" .root "\"y\"" ["x"])) :=
  ⟨_, _, rfl, rfl, rfl, rfl⟩

end ObjectSchema

end FieldSchema
