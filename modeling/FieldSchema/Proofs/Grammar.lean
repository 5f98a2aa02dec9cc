import FieldSchema.Proofs.Descent
import FieldSchema.Proofs.Reordering
import FieldSchema.Proofs.WellFormed

/-! The grammar of schemas that are declared. It says of each level which members an object of a
schema may have, and of each declaration which options; a schema is normalized exactly if it follows
the grammar at every level. -/
namespace FieldSchema

namespace Options

/-- Whether options make their field an array. -/
def flagged (entries : Members) : Bool :=
  match entries.lookup Key.array with
  | some (.bool flag) => flag
  | _ => false

/-- The options that a field of the given type may have; there is no type for an object. Keys that
are not named here may have any value. -/
structure Legal (type : Option Primitive) (entries : Members) : Prop where
  own : ∀ key ∈ Entries.names entries, key ≠ Key.type ∧ key ≠ Key.required
  array : ∀ value, (Key.array, value) ∈ entries → ∃ flag, value = .bool flag
  unique : ∀ value, (Key.unique, value) ∈ entries → ∃ flag, value = .bool flag
  allowed : ∀ value, (Key.allowed, value) ∈ entries →
    type = some .string ∧ ∃ names, value = .strings names
  maxLength : ∀ value, (Key.maxLength, value) ∈ entries →
    type = some .string ∧ ∃ n, value = .natural n
  exactLength : ∀ value, (Key.exactLength, value) ∈ entries →
    type = some .string ∧ ∃ n, value = .natural n
  atLeast : ∀ value, (Key.atLeast, value) ∈ entries → type = some .number ∧
    ((∃ name, value = .string name) ∨ ∃ names, names ≠ [] ∧ value = .strings names)
  default : ∀ value, (Key.default, value) ∈ entries →
    ∃ primitive, type = some primitive ∧ primitive.Takes (flagged entries) value

theorem isSome_bool?_iff {value : Json} : value.bool?.isSome = true ↔ ∃ flag, value = .bool flag := by
  cases value <;> simp [Json.bool?]

theorem isSome_natural?_iff {value : Json} :
    value.natural?.isSome = true ↔ ∃ n, value = .natural n := by
  cases value with
  | number number => cases number <;> simp [Json.natural?, Json.natural]
  | null | bool | string | array | object => simp [Json.natural?, Json.natural]

theorem mapM_string?_eq_some_iff {items : List Json} {names : List String} :
    items.mapM Json.string? = some names ↔ items = names.map .string := by
  constructor
  · intro read
    induction items generalizing names with
    | nil => cases read; rfl
    | cons item rest ih =>
      rw [List.mapM_cons] at read
      obtain ⟨name, first, tail⟩ := Option.bind_eq_some_iff.mp read
      obtain ⟨others, later, same⟩ := Option.bind_eq_some_iff.mp tail
      cases same
      cases item with
      | string text =>
        cases first
        rw [List.map_cons, ih later]
      | null | bool | number | array | object => cases first
  · rintro rfl
    exact strings?_strings names

theorem strings?_eq_some_iff {value : Json} {names : List String} :
    value.strings? = some names ↔ value = .strings names := by
  cases value with
  | array items => rw [Json.strings?, mapM_string?_eq_some_iff, Json.strings, Json.array.injEq]
  | null | bool | number | string | object => simp [Json.strings?, Json.strings]

theorem references?_eq_some_iff {value : Json} {names : List String} :
    references? value = some names ↔
      (∃ name, value = .string name ∧ names = [name]) ∨ names ≠ [] ∧ value = .strings names := by
  cases value with
  | string name =>
    simp only [references?, Option.some.injEq, Json.string.injEq, Json.strings, reduceCtorEq,
      and_false, or_false, exists_eq_left']
    exact eq_comm
  | null | bool | number | array | object =>
    simp [references?, Option.filter_eq_some_iff, strings?_eq_some_iff, and_comm]

section

variable {type : Option Primitive} {entries : Members}

theorem flagged_eq (entries : Members) :
    ((entries.lookup Key.array).bind Json.bool?).getD false = flagged entries := by
  unfold flagged
  cases entries.lookup Key.array with
  | none => rfl
  | some value => cases value <;> rfl

theorem Legal.accepts (legal : Legal type entries) :
    ∀ entry ∈ entries, accepts type entry = true := by
  rintro ⟨key, value⟩ member
  have own := legal.own key (List.mem_map_of_mem member)
  simp only [Options.accepts]
  split_ifs with array allowed maxLength exactLength atLeast default unique
  · subst array
    exact isSome_bool?_iff.mpr (legal.array value member)
  · subst allowed
    obtain ⟨rfl, names, rfl⟩ := legal.allowed value member
    simp [strings?_strings]
  · subst maxLength
    obtain ⟨rfl, n, rfl⟩ := legal.maxLength value member
    rfl
  · subst exactLength
    obtain ⟨rfl, n, rfl⟩ := legal.exactLength value member
    rfl
  · subst atLeast
    obtain ⟨rfl, ⟨name, rfl⟩ | ⟨names, named, rfl⟩⟩ := legal.atLeast value member
    · rfl
    · have read : references? (.strings names) = some names :=
        references?_eq_some_iff.mpr (.inr ⟨named, rfl⟩)
      simp [read]
  · rfl
  · subst unique
    exact isSome_bool?_iff.mpr (legal.unique value member)
  · simp [own]

theorem legal_of_accepts (accepted : ∀ entry ∈ entries, accepts type entry = true)
    (default : ∀ value, (Key.default, value) ∈ entries →
      ∃ primitive, type = some primitive ∧ primitive.Takes (flagged entries) value) :
    Legal type entries where
  own key member := by
    obtain ⟨⟨_, value⟩, listed, rfl⟩ := List.mem_map.mp member
    have taken := accepted _ listed
    constructor
    · rintro rfl
      cases taken
    · rintro rfl
      cases taken
  array value member := isSome_bool?_iff.mp (accepted _ member)
  unique value member := isSome_bool?_iff.mp (accepted _ member)
  allowed value member := by
    have taken : (type = some .string && value.strings?.isSome) = true := accepted _ member
    simpa [Option.isSome_iff_exists, strings?_eq_some_iff] using taken
  maxLength value member := by
    have taken : (type = some .string && value.natural?.isSome) = true := accepted _ member
    simpa [isSome_natural?_iff] using taken
  exactLength value member := by
    have taken : (type = some .string && value.natural?.isSome) = true := accepted _ member
    simpa [isSome_natural?_iff] using taken
  atLeast value member := by
    have taken : (type = some .number && (references? value).isSome) = true := accepted _ member
    simp only [Bool.and_eq_true, decide_eq_true_eq, Option.isSome_iff_exists,
      references?_eq_some_iff] at taken
    obtain ⟨isNumber, names, ⟨name, rfl, -⟩ | ⟨named, rfl⟩⟩ := taken
    · exact ⟨isNumber, .inl ⟨name, rfl⟩⟩
    · exact ⟨isNumber, .inr ⟨names, named, rfl⟩⟩
  default := default

/-- Options are read exactly if they are legal. -/
theorem read_eq_ok_iff_legal (distinct : Entries.Distinct entries) {draft : Draft} :
    read type entries = .ok draft ↔ Legal type entries ∧ draft = gathered entries := by
  have suited : DefaultSuits type (gathered entries) ↔ ∀ value, (Key.default, value) ∈ entries →
      ∃ primitive, type = some primitive ∧ primitive.Takes (flagged entries) value := by
    simp only [DefaultSuits, gathered, flagged_eq, suits_eq_true_iff,
      Entries.lookup_eq_some_iff distinct]
  rw [read_eq_ok_iff distinct, suited, ← and_assoc]
  refine and_congr_left fun _ => ?_
  constructor
  · rintro ⟨accepted, default⟩
    exact legal_of_accepts accepted default
  · intro legal
    exact ⟨legal.accepts, legal.default⟩

/-- One of the names that the value of `greaterOrEqualTo` refers to. -/
def RefersTo (value : Json) (name : String) : Prop :=
  value = .string name ∨ ∃ names, value = .strings names ∧ name ∈ names

theorem refersTo_iff {value : Json} {name : String} :
    RefersTo value name ↔ ∃ names, references? value = some names ∧ name ∈ names := by
  simp only [references?_eq_some_iff]
  constructor
  · rintro (rfl | ⟨names, rfl, member⟩)
    · exact ⟨[name], .inl ⟨name, rfl, rfl⟩, List.mem_singleton_self name⟩
    · exact ⟨names, .inr ⟨List.ne_nil_of_mem member, rfl⟩, member⟩
  · rintro ⟨names, ⟨other, rfl, rfl⟩ | ⟨-, rfl⟩, member⟩
    · exact .inl (congrArg Json.string (List.mem_singleton.mp member).symm)
    · exact .inr ⟨names, rfl, member⟩

theorem mem_references_gathered_iff (distinct : Entries.Distinct entries) {name : String} :
    name ∈ (gathered entries).1.atLeast.getD [] ↔
      ∃ value, (Key.atLeast, value) ∈ entries ∧ RefersTo value name := by
  simp only [refersTo_iff, ← Entries.lookup_eq_some_iff distinct, gathered]
  cases entries.lookup Key.atLeast with
  | none => simp
  | some value => cases read : references? value <;> simp [read]

end

end Options

namespace Declaration

/-- A field is declared by an object: of the options of a primitive field, or of the members of an
object, with its options beside the halves. -/
inductive Legal (declaration : Declaration) : Prop where
  | primitive {type : Primitive} {entries : Members} :
    declaration.tag = type.name → declaration.value = .object entries →
    Options.Legal (some type) entries → Legal declaration
  | object {members : Members} :
    declaration.tag = Tag.object.name → declaration.value = .object members →
    Options.Legal none (Collection.ownOptions members) → Legal declaration

/-- The declared field has a reference to the field `name`. -/
def Refers (declaration : Declaration) (name : String) : Prop :=
  ∃ entries value, declaration.value = .object entries ∧ (Key.atLeast, value) ∈ entries ∧
    Options.RefersTo value name

end Declaration

namespace Collection

/-- Members that declare the fields of an object, at the given depth. -/
structure LegalLevel (limit depth : Nat) (members : Members) : Prop where
  shallow : depth < limit
  /-- A half is an object of groups, and each of these is an object under the tag of a type. -/
  halves : ∀ key value, (key, value) ∈ members → key = Key.required ∨ key = Key.optional →
    ∃ groups, value = .object groups ∧ ∀ name group, (name, group) ∈ groups →
      (∃ tag : Tag, name = tag.name) ∧ ∃ fields, group = .object fields
  fields : ∀ declaration ∈ declarations members, declaration.Legal
  once : ((declarations members).map (·.name)).Nodup
  references : ∀ declaration ∈ declarations members, ∀ name, declaration.Refers name →
    ∃ other ∈ declarations members, other.name = name ∧ other.tag = Primitive.number.name

/-- The members of an object that is declared by the given name. -/
def DeclaresObject (members : Members) (name : String) (inner : Members) : Prop :=
  ∃ declaration ∈ declarations members, declaration.name = name ∧
    declaration.tag = Tag.object.name ∧ declaration.value = .object inner

theorem required?_ne_none_iff {key : String} :
    required? key ≠ none ↔ key = Key.required ∨ key = Key.optional := by
  unfold required?
  split_ifs <;> simp_all

theorem halfShaped_iff {value : Json} : HalfShaped value ↔
    ∃ groups, value = .object groups ∧ ∀ name group, (name, group) ∈ groups →
      (∃ tag : Tag, name = tag.name) ∧ ∃ fields, group = .object fields := by
  simp only [HalfShaped, GroupShaped, Tag.parse?_eq_some_iff, Prod.forall, @eq_comm _ (Tag.name _)]

theorem shaped_iff {nested : Bool} {members : Members} : Shaped nested members ↔
    (∀ key value, (key, value) ∈ members → key = Key.required ∨ key = Key.optional →
      HalfShaped value) ∧
    (nested = false → ∀ key ∈ Entries.names members, key = Key.required ∨ key = Key.optional) := by
  constructor
  · rintro ⟨half, own⟩
    refine ⟨fun key value member isHalf => half key value member (required?_ne_none_iff.mpr isHalf),
      ?_⟩
    rintro rfl key member
    obtain ⟨⟨_, value⟩, listed, rfl⟩ := List.mem_map.mp member
    exact required?_ne_none_iff.mp fun isOwn =>
      absurd (own _ value listed isOwn) Bool.false_ne_true
  · rintro ⟨half, own⟩
    refine ⟨fun key value member isHalf => half key value member (required?_ne_none_iff.mp isHalf),
      fun key value member isOwn => ?_⟩
    cases nested with
    | true => rfl
    | false =>
      exact absurd isOwn (required?_ne_none_iff.mpr (own rfl key (List.mem_map_of_mem member)))

/-- A declaration stands in a group, and the group in a half. -/
theorem exists_of_mem_declarations {members : Members} {declaration : Declaration}
    (declared : declaration ∈ declarations members) : ∃ key groups fields,
      (key, .object groups) ∈ members ∧ (declaration.tag, .object fields) ∈ groups ∧
        (declaration.name, declaration.value) ∈ fields := by
  obtain ⟨⟨key, value⟩, inMembers, ofHalf⟩ := List.mem_flatMap.mp declared
  dsimp only at ofHalf
  cases half : required? key with
  | none =>
    rw [half] at ofHalf
    cases ofHalf
  | some required =>
    rw [half] at ofHalf
    cases value with
    | object groups =>
      obtain ⟨⟨tag, group⟩, inGroups, ofGroup⟩ := List.mem_flatMap.mp ofHalf
      cases group with
      | object fields =>
        obtain ⟨⟨name, value⟩, inFields, rfl⟩ := List.mem_map.mp ofGroup
        exact ⟨key, groups, fields, inMembers, inGroups, inFields⟩
      | null | bool | number | string | array => cases ofGroup
    | null | bool | number | string | array => cases ofHalf

theorem distinct_declaration {members : Members} (distinct : (Json.object members).Distinct)
    {declaration : Declaration} (declared : declaration ∈ declarations members) :
    declaration.value.Distinct := by
  obtain ⟨key, groups, fields, inMembers, inGroups, inFields⟩ := exists_of_mem_declarations declared
  exact Json.distinct_of_mem
    (Json.distinct_of_mem (Json.distinct_of_mem distinct inMembers) inGroups) inFields

theorem distinct_object {members inner : Members} (distinct : (Json.object members).Distinct)
    {name : String} (object : DeclaresObject members name inner) : (Json.object inner).Distinct := by
  obtain ⟨declaration, declared, -, -, held⟩ := object
  exact held ▸ distinct_declaration distinct declared

/-- Members are larger than those of the objects that they declare. -/
theorem membersInduction {motive : Members → Prop}
    (step : ∀ members, (∀ name inner, DeclaresObject members name inner → motive inner) →
      motive members) (members : Members) : motive members :=
  step members fun _ inner _ => membersInduction step inner
termination_by sizeOf members
decreasing_by
  rename_i held
  obtain ⟨declaration, declared, -, -, isObject⟩ := held
  obtain ⟨key, groups, fields, inMembers, inGroups, inFields⟩ := exists_of_mem_declarations declared
  have ofHalf := List.sizeOf_lt_of_mem inMembers
  have ofGroup := List.sizeOf_lt_of_mem inGroups
  have ofField := List.sizeOf_lt_of_mem inFields
  rw [isObject] at ofField
  simp only [Prod.mk.sizeOf_spec, Json.object.sizeOf_spec] at ofHalf ofGroup ofField
  omega

theorem mem_ownOptions_iff {members : Members} {key : String} {value : Json}
    (own : required? key = none) : (key, value) ∈ ownOptions members ↔ (key, value) ∈ members := by
  simp [ownOptions, own]

end Collection

namespace Declaration

open Collection

theorem refers_iff {declaration : Declaration} {entries : Members}
    (held : declaration.value = .object entries) {name : String} : declaration.Refers name ↔
      ∃ value, (Key.atLeast, value) ∈ entries ∧ Options.RefersTo value name := by
  simp [Refers, held]

section

variable {settings : Settings} {path : Path} {declaration : Declaration}
  (distinct : declaration.value.Distinct)

include distinct

/-- A declaration stands for a field exactly if it is legal and, if it is one of an object, what the
object declares can be compiled. -/
theorem exists_declares_iff : (∃ field, declaration.Declares settings path field) ↔
    declaration.Legal ∧ ∀ members, declaration.tag = Tag.object.name →
      declaration.value = .object members → ∃ others map,
        Compiles settings (path.child declaration.name) true members others map := by
  constructor
  · rintro ⟨_, declares⟩
    cases declares with
    | @primitive type entries draft known held taken =>
      rw [held] at distinct
      have tagged := Tag.parse?_eq_some_iff.mp known
      refine ⟨.primitive tagged.symm held
        ((Options.read_eq_ok_iff_legal distinct.1).mp taken).1, fun members isObject => ?_⟩
      rw [isObject] at known
      cases known
    | @object members others fields draft known held compiles taken =>
      rw [held] at distinct
      have tagged := Tag.parse?_eq_some_iff.mp known
      obtain ⟨-, rfl, -⟩ := compiles_iff_items.mp compiles
      refine ⟨.object tagged.symm held
        ((Options.read_eq_ok_iff_legal (distinct.1.filter _)).mp taken).1, fun inner _ same => ?_⟩
      cases held.symm.trans same
      exact ⟨_, fields, compiles⟩
  · rintro ⟨legal, inside⟩
    cases legal with
    | @primitive type entries tagged held legal =>
      rw [held] at distinct
      exact ⟨_, .primitive (Tag.parse?_eq_some_iff.mpr tagged.symm) held
        ((Options.read_eq_ok_iff_legal distinct.1).mpr ⟨legal, rfl⟩)⟩
    | @object members tagged held legal =>
      rw [held] at distinct
      obtain ⟨others, fields, compiles⟩ := inside members tagged held
      obtain ⟨-, rfl, -⟩ := compiles_iff_items.mp compiles
      exact ⟨_, .object (Tag.parse?_eq_some_iff.mpr tagged.symm) held compiles
        ((Options.read_eq_ok_iff_legal (distinct.1.filter _)).mpr ⟨legal, rfl⟩)⟩

/-- The references of a field are those of its declaration. -/
theorem Declares.mem_references_iff {field : Field}
    (declares : declaration.Declares settings path field) {name : String} :
    name ∈ field.options.atLeast.getD [] ↔ declaration.Refers name := by
  cases declares with
  | @primitive type entries draft known held taken =>
    rw [held] at distinct
    obtain ⟨-, rfl⟩ := (Options.read_eq_ok_iff_legal distinct.1).mp taken
    rw [refers_iff held]
    exact Options.mem_references_gathered_iff distinct.1
  | @object members others fields draft known held compiles taken =>
    rw [held] at distinct
    obtain ⟨-, rfl, -⟩ := compiles_iff_items.mp compiles
    obtain ⟨-, rfl⟩ := (Options.read_eq_ok_iff_legal (distinct.1.filter _)).mp taken
    have own : required? Key.atLeast = none := rfl
    rw [refers_iff held]
    exact (Options.mem_references_gathered_iff (distinct.1.filter _)).trans
      (exists_congr fun _ => and_congr_left fun _ => mem_ownOptions_iff own)

end

theorem Declares.isNumber_iff {settings : Settings} {path : Path} {declaration : Declaration}
    {field : Field} (declares : declaration.Declares settings path field) :
    field.isNumber = true ↔ declaration.tag = Primitive.number.name := by
  cases declares with
  | @primitive type entries draft known held taken =>
    rw [Field.isNumber_iff]
    constructor
    · rintro ⟨_, same⟩
      cases same
      exact (Tag.parse?_eq_some_iff.mp known).symm
    · intro tagged
      rw [tagged] at known
      cases known
      exact ⟨_, rfl⟩
  | @object members others fields draft known held compiles taken =>
    refine iff_of_false Bool.false_ne_true fun tagged => ?_
    rw [tagged] at known
    cases known

end Declaration

namespace Collection

variable {settings : Settings} {path : Path}

/-- Fields have all their references resolved exactly if their declarations do. -/
theorem resolved_iff_of_declares {listed : List Declaration} {map : FieldMap}
    (values : ∀ declaration ∈ listed, declaration.value.Distinct) (once : Entries.Distinct map)
    (each : List.Forall₂ (fun declaration entry => declaration.name = entry.1 ∧
      declaration.Declares settings path entry.2) listed map) :
    map.Resolved ↔ ∀ declaration ∈ listed, ∀ name, declaration.Refers name →
      ∃ other ∈ listed, other.name = name ∧ other.tag = Primitive.number.name := by
  constructor
  · intro resolved declaration declared name refers
    obtain ⟨entry, member, -, declares⟩ := exists_of_forall₂ each declared
    have reference := (declares.mem_references_iff (values _ declared)).mpr refers
    obtain ⟨target, found, number⟩ :=
      FieldMap.badReference?_eq_none_iff.mp (resolved _ _ member name reference)
    obtain ⟨other, listed, named, declares⟩ := exists_of_forall₂ each.flip (Entries.mem_of_lookup found)
    exact ⟨other, listed, named, declares.isNumber_iff.mp number⟩
  · intro resolved name field member reference named
    obtain ⟨declaration, declared, -, declares⟩ := exists_of_forall₂ each.flip member
    have refers := (declares.mem_references_iff (values _ declared)).mp named
    obtain ⟨other, listed, rfl, tagged⟩ := resolved declaration declared reference refers
    obtain ⟨⟨_, target⟩, found, rfl, declares⟩ := exists_of_forall₂ each listed
    exact FieldMap.badReference?_eq_none_iff.mpr ⟨target, (Entries.lookup_eq_some_iff once).mpr found,
      declares.isNumber_iff.mpr tagged⟩

theorem names_of_declares {listed : List Declaration} {map : FieldMap}
    (each : List.Forall₂ (fun declaration entry => declaration.name = entry.1 ∧
      declaration.Declares settings path entry.2) listed map) :
    listed.map (·.name) = Entries.names map := by
  rw [← List.forall₂_eq_eq_eq, Entries.names, List.forall₂_map_left_iff, List.forall₂_map_right_iff]
  exact each.imp fun _ _ declares => declares.1

/-- Members can be compiled exactly if they are legal where they stand, and those of each object that
they declare can be compiled. -/
theorem exists_compiles_iff_level (rejects : settings.duplicates = .reject) {nested : Bool}
    {members : Members} (distinct : (Json.object members).Distinct) :
    (∃ others map, Compiles settings path nested members others map) ↔
      (nested = false → ∀ key ∈ Entries.names members, key = Key.required ∨ key = Key.optional) ∧
        LegalLevel settings.maxDepth path.depth members ∧
        ∀ name inner, DeclaresObject members name inner →
          ∃ others map, Compiles settings (path.child name) true inner others map := by
  have values : ∀ declaration ∈ declarations members, declaration.value.Distinct :=
    fun _ declared => distinct_declaration distinct declared
  constructor
  · rintro ⟨_, map, compiles⟩
    obtain ⟨shaped, rfl, shallow, resolved, once, each⟩ := (compiles_iff rejects).mp compiles
    obtain ⟨halves, only⟩ := shaped_iff.mp shaped
    have declares : ∀ declaration ∈ declarations members,
        ∃ field, declaration.Declares settings path field := by
      intro declaration declared
      obtain ⟨entry, -, -, declares⟩ := exists_of_forall₂ each declared
      exact ⟨entry.2, declares⟩
    have legal (declaration : Declaration) (declared : declaration ∈ declarations members) :=
      (declaration.exists_declares_iff (values _ declared)).mp (declares _ declared)
    refine ⟨only, ⟨shallow, fun key value member isHalf => ?_, fun _ declared =>
      (legal _ declared).1, ?_, (resolved_iff_of_declares values once each).mp resolved⟩, ?_⟩
    · exact halfShaped_iff.mp (halves key value member isHalf)
    · rw [names_of_declares each]
      exact once
    · rintro _ inner ⟨declaration, declared, rfl, tagged, held⟩
      exact (legal _ declared).2 inner tagged held
  · rintro ⟨only, ⟨shallow, halves, legal, once, references⟩, inside⟩
    have declares : ∀ declaration ∈ declarations members, ∃ entry : String × Field,
        declaration.name = entry.1 ∧ declaration.Declares settings path entry.2 := by
      intro declaration declared
      obtain ⟨field, declares⟩ := (declaration.exists_declares_iff (values _ declared)).mpr
        ⟨legal _ declared, fun inner tagged held =>
          inside _ inner ⟨declaration, declared, rfl, tagged, held⟩⟩
      exact ⟨(declaration.name, field), rfl, declares⟩
    obtain ⟨map, each⟩ := exists_forall₂ declares
    have distinctMap : Entries.Distinct map := by
      rw [Entries.Distinct, ← names_of_declares each]
      exact once
    refine ⟨_, map, (compiles_iff rejects).mpr ⟨shaped_iff.mpr ⟨?_, only⟩, rfl, shallow,
      (resolved_iff_of_declares values distinctMap each).mpr references, distinctMap, each⟩⟩
    exact fun key value member isHalf => halfShaped_iff.mpr (halves key value member isHalf)

/-- The members of a schema, or of an object in it, can be compiled exactly if they are legal at
every level. -/
theorem exists_compiles_iff (rejects : settings.duplicates = .reject) {nested : Bool}
    {members : Members} (distinct : (Json.object members).Distinct) :
    (∃ others map, Compiles settings path nested members others map) ↔
      (nested = false → ∀ key ∈ Entries.names members, key = Key.required ∨ key = Key.optional) ∧
        AtEachLevel DeclaresObject (LegalLevel settings.maxDepth) path.depth members := by
  induction members using membersInduction generalizing path nested with
  | step members ih =>
    rw [exists_compiles_iff_level rejects distinct, atEachLevel_iff]
    refine and_congr_right fun _ => and_congr_right fun _ => forall₃_congr fun name inner object => ?_
    rw [ih name inner object (distinct_object distinct object), Path.depth_child]
    exact and_iff_right fun outermost => by cases outermost

end Collection

/-- A schema has halves and nothing else, and it is legal at the levels of all its objects. -/
def Json.LegalSchema (limit : Nat) (schema : Json) : Prop :=
  ∃ members, schema = .object members ∧
    (∀ key ∈ Entries.names members, key = Key.required ∨ key = Key.optional) ∧
    ∀ path inner, Descends Collection.DeclaresObject members path inner →
      Collection.LegalLevel limit path.depth inner

namespace Source

/-- A schema that is declared, where no field may be declared again, is normalized exactly if it is
legal. -/
theorem normalizes_iff_legal {settings : Settings} {schema : Json}
    (rejects : settings.duplicates = .reject) (distinct : schema.Distinct)
    (declared : ∀ members, schema = .object members → FieldMap.isWrittenForm members = false) :
    (∃ map, normalizeValue settings schema = .ok map) ↔
      schema.LegalSchema settings.maxDepth := by
  have compiled : ∀ members, schema = .object members →
      ((∃ others map, Collection.Compiles settings .root false members others map) ↔
        (∀ key ∈ Entries.names members, key = Key.required ∨ key = Key.optional) ∧
        ∀ path inner, Descends Collection.DeclaresObject members path inner →
          Collection.LegalLevel settings.maxDepth path.depth inner) := by
    rintro members rfl
    rw [Collection.exists_compiles_iff rejects distinct]
    simp [AtEachLevel]
  simp only [normalizeValue_eq_ok_iff]
  constructor
  · rintro ⟨map, members, same, complete⟩
    rw [declared members same, if_neg Bool.false_ne_true] at complete
    obtain ⟨others, compiles⟩ := complete
    exact ⟨members, same, (compiled members same).mp ⟨others, map, compiles⟩⟩
  · rintro ⟨members, same, legal⟩
    obtain ⟨others, map, compiles⟩ := (compiled members same).mpr legal
    refine ⟨map, members, same, ?_⟩
    rw [declared members same, if_neg Bool.false_ne_true]
    exact ⟨others, compiles⟩

/-- An option before the flag that it depends on, and fields called as the words of the language:
the schema is legal, until a reference is to a number outside of its object. -/
theorem normalizes_iff_legal_of_references :
    let settings : Settings := ⟨2, .reject, "_ref_"⟩
    let inner (reference : String) : Members :=
      [("note", .null), ("required", .object [("number", .object
        [("optional", .object [("default", .array [.natural 1]), ("array", .bool true)]),
          ("high", .object [("greaterOrEqualTo", .strings [reference])])])])]
    let members (reference : String) : Members :=
      [("optional", .object [("object", .object [("type", .object (inner reference))])]),
        ("required", .object [("number", .object [("low", .object [])]),
          ("string", .object [("s", .object [("enum", .strings ["x"]), ("optional", .null)])])])]
    (∀ reference, settings.duplicates = .reject ∧ (Json.object (members reference)).Distinct ∧
      FieldMap.isWrittenForm (members reference) = false) ∧
    (Json.object (members "optional")).LegalSchema settings.maxDepth ∧
    ¬(Json.object (members "low")).LegalSchema settings.maxDepth := by
  intro settings inner members
  have declared : ∀ reference, FieldMap.isWrittenForm (members reference) = false := fun _ => rfl
  have distinct : ∀ reference, (Json.object (members reference)).Distinct := by
    intro reference
    simp [members, inner, Json.Distinct, Json.DistinctMembers, Json.DistinctItems, Entries.Distinct,
      Json.strings, Json.natural]
  have iff : ∀ reference, (∃ map, normalizeValue settings (.object (members reference)) = .ok map) ↔
      (Json.object (members reference)).LegalSchema settings.maxDepth := fun reference =>
    normalizes_iff_legal rfl (distinct reference) fun listed same => by
      cases same
      exact declared reference
  refine ⟨fun reference => ⟨rfl, distinct reference, declared reference⟩,
    (iff "optional").mp ⟨_, rfl⟩, fun legal => ?_⟩
  obtain ⟨map, complete⟩ := (iff "low").mpr legal
  cases complete

end Source

end FieldSchema
