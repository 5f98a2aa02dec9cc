import FieldSchema.Proofs.Acceptance
import FieldSchema.Proofs.Entries

/-! What an object schema constructs. Defaults are filled in once: in every object that is described
there is then nothing left to fill in, and nothing that is not declared. So what was constructed is
constructed from itself, and both ways to extract take it as it is. -/
namespace FieldSchema

/-- Nothing is left to fill in, and nothing is there that is not declared. -/
structure FieldMap.Whole (fields : FieldMap) (members : Members) : Prop where
  filled : Entry.fillFields members (Entry.ofFields fields) = members
  picked : Field.pickFields (fun _ => true) members fields = members

namespace Field

variable {members : Members} {name : String} {field : Field}

/-- What a field has once defaults are filled in stays as it is, if that holds of the objects in
it. A default is never filled in again, since only primitive fields have one. -/
theorem filled_fixed {value : Json} (filled : field.filled members name = some value)
    (inner : ∀ fields traits, field = .object fields traits → ∀ ms,
      FieldMap.Whole fields (Entry.fillFields ms (Entry.ofFields fields))) :
    Entry.fill value (Entry.ofField field) = value ∧ field.pick (fun _ => true) value = value := by
  cases field with
  | primitive type traits => simp only [Entry.ofField, Entry.fill, pick, and_self]
  | object fields traits =>
    have whole := inner fields traits rfl
    unfold Field.filled at filled
    cases found : members.lookup name with
    | none => simp [found, Entry.ofField, Entry.traits, ObjectSchema.objectTraits] at filled
    | some given =>
      simp only [found, Option.some.injEq, Entry.fill_object] at filled
      subst filled
      simp only [Entry.fill_object, pick]
      rw [Json.mapObjects_mapObjects, Json.mapObjects_mapObjects,
        funext fun ms => (whole ms).filled, funext fun ms => (whole ms).picked]
      exact ⟨rfl, rfl⟩

end Field

namespace Entry

theorem lookup_fillFields {fields : FieldMap} (distinct : Entries.Distinct fields)
    (members : Members) {name : String} {field : Field} (member : (name, field) ∈ fields) :
    (fillFields members (ofFields fields)).lookup name = field.filled members name := by
  have entries : Entries.Distinct (ObjectSchema.ofFields fields).fields := by
    rw [ObjectSchema.ofFields, ofFields_eq_map]
    exact distinct.mapValues fun _ => ofField
  refine (ObjectSchema.lookup_fillFields entries members name).trans ?_
  rw [ObjectSchema.field?_ofFields, (Entries.lookup_eq_some_iff distinct).mpr member]
  rfl

theorem fillFields_whole (fields : FieldMap) (distinct : fields.Throughout Entries.Distinct)
    (members : Members) : fields.Whole (fillFields members (ofFields fields)) := by
  induction fields using FieldMap.induction generalizing members with
  | step fields ih =>
    obtain ⟨here, below⟩ := FieldMap.throughout_iff.mp distinct
    have found {name : String} {field : Field} (member : (name, field) ∈ fields) :=
      lookup_fillFields here members member
    have fixed : ∀ name field value, (name, field) ∈ fields →
        field.filled members name = some value →
          fill value (ofField field) = value ∧ field.pick (fun _ => true) value = value := by
      intro name field value member filled
      refine Field.filled_fixed filled fun inner traits same ms => ?_
      subst same
      exact ih name inner traits member (below name inner traits member) ms
    constructor
    · refine (fillFields_ofFields _ fields).trans (Eq.trans ?_
        (fillFields_ofFields members fields).symm)
      refine List.filterMap_congr fun ⟨name, field⟩ member => congrArg (Option.map _) ?_
      rw [Field.filled, found member]
      cases filled : field.filled members name with
      | some value => exact congrArg some (fixed name field value member filled).1
      | none =>
        unfold Field.filled at filled
        split at filled
        · cases filled
        · exact filled
    · refine (Field.pickFields_eq_flatMap _ _ fields).trans (Eq.trans ?_
        (fillFields_ofFields members fields).symm)
      rw [List.filterMap_eq_flatMap_toList]
      refine List.flatMap_congr fun ⟨name, field⟩ member => ?_
      dsimp only
      rw [found member]
      cases filled : field.filled members name with
      | some value => simp [(fixed name field value member filled).2]
      | none => rfl

end Entry

/-- Hooks run in their order, up to the first that fails. -/
theorem Hook.firstFault_append (members : Members) (path : Path) (first second : List Hook) :
    firstFault members path (first ++ second) =
      (firstFault members path first).or (firstFault members path second) := by
  induction first with
  | nil => rfl
  | cons hook rest ih =>
    rw [List.cons_append, firstFault, firstFault]
    cases hook.run members path with
    | error fault => rfl
    | ok => exact ih

namespace ObjectSchema

variable {schema : ObjectSchema} {hooks : List (String × (Members → Except Fault Unit))}
  {document result : Json}

/-- Adds hooks one after the other. -/
def addHooks (schema : ObjectSchema) (hooks : List (String × (Members → Except Fault Unit))) :
    ObjectSchema :=
  hooks.foldl (fun schema (name, run) => schema.addHook name run) schema

theorem addHooks_eq (schema : ObjectSchema)
    (hooks : List (String × (Members → Except Fault Unit))) : schema.addHooks hooks =
      { schema with hooks := schema.hooks ++ hooks.map fun (name, run) => .custom name run } := by
  unfold addHooks
  induction hooks generalizing schema with
  | nil => simp
  | cons hook rest ih => rw [List.foldl_cons, ih]; simp [addHook]

theorem valid_iff_no_faults :
    (schema.validate document).valid = true ↔ (schema.validate document).faults = [] := by
  rw [validate_eq]
  exact List.isEmpty_iff

theorem valid_iff : (schema.validate document).valid = true ↔ ∃ members,
    document = .object members ∧ Hook.firstFault members .root schema.hooks = none ∧
      Entry.fieldFaults .root members schema.fields = [] := by
  rw [valid_iff_no_faults, faults_validate]
  cases document with
  | object members =>
    cases failed : Hook.firstFault members .root schema.hooks with
    | none => simp [faults, Entry.guardedFaults, failed]
    | some fault => simp [faults, Entry.guardedFaults, failed]
  | null | bool | number | string | array => simp [faults]

/-- Hooks that are added let no more documents pass. -/
theorem valid_of_addHooks (valid : ((schema.addHooks hooks).validate document).valid = true) :
    (schema.validate document).valid = true := by
  rw [addHooks_eq] at valid
  obtain ⟨members, rfl, passed, fields⟩ := valid_iff.mp valid
  rw [Hook.firstFault_append, Option.or_eq_none_iff] at passed
  exact valid_iff.mpr ⟨members, rfl, passed.1, fields⟩

theorem construct_eq_ok_iff : schema.construct document = .ok result ↔ ∃ members,
    document = .object members ∧ result = .object (Entry.fillFields members schema.fields) ∧
      (schema.validate result).valid = true := by
  cases document with
  | object members =>
    simp only [construct, Json.object.injEq, exists_eq_left']
    generalize Json.object (Entry.fillFields members schema.fields) = built
    by_cases valid : (schema.validate built).valid = true
    · rw [if_pos valid]
      constructor
      · intro same
        cases same
        exact ⟨rfl, valid⟩
      · rintro ⟨rfl, -⟩
        rfl
    · rw [if_neg valid]
      constructor
      · intro same
        cases same
      · rintro ⟨rfl, accepted⟩
        exact absurd accepted valid
  | null | bool | number | string | array => simp [construct]

end ObjectSchema

section

variable {settings : Settings} {map : FieldMap}

/-- An object with nothing to leave out is extracted as it is, if the object schema accepts it. -/
theorem extract_of_whole {members : Members} (fits : map.Fits settings.maxDepth 0)
    (whole : map.Whole members)
    (accepted : ((ObjectSchema.ofFields map).validate (.object members)).valid = true) :
    extract settings map (.object members) = .ok (.object members) ∧
      extractValid settings map (.object members) = .ok (.object members) := by
  have rules := Audit.checked_of_hooked (ObjectSchema.validate_valid_iff.mp accepted)
  have form := Audit.shape_of_checked rules
  have same : map.pick (fun _ => true) (.object members) = .object members :=
    congrArg Json.object whole.picked
  constructor
  · rw [extract, extractKept_eq fits, Extraction.keeps_none, form, same, failFast_nil]
  · rw [extractValid_eq fits _ fun _ => by rw [same, form], same, form, rules]
    rfl

/-- What is constructed is constructed from itself, whatever hooks were added; it is valid, and both
ways to extract give it back. -/
theorem ObjectSchema.construct_fixed {built : ObjectSchema}
    (distinct : map.Throughout Entries.Distinct) (complete : ofMap settings map = .ok built)
    (hooks : List (String × (Members → Except Fault Unit))) {document result : Json}
    (constructed : (built.addHooks hooks).construct document = .ok result) :
    (built.addHooks hooks).construct result = .ok result ∧
      ((built.addHooks hooks).validate result).valid = true ∧
      extract settings map result = .ok result ∧ extractValid settings map result = .ok result := by
  obtain ⟨fits, rfl⟩ := ofMap_eq_ok_iff.mp complete
  obtain ⟨members, rfl, rfl, valid⟩ := construct_eq_ok_iff.mp constructed
  have declared : ((ofFields map).addHooks hooks).fields = Entry.ofFields map := by
    rw [addHooks_eq]
    rfl
  rw [declared] at valid ⊢
  have whole := Entry.fillFields_whole map distinct members
  refine ⟨?_, valid, extract_of_whole fits whole (valid_of_addHooks valid)⟩
  rw [construct_eq_ok_iff, declared]
  exact ⟨_, rfl, congrArg Json.object whole.filled.symm, valid⟩

/-- A default beside the rows and one in each of them, and a hook that asks for the first. -/
theorem ObjectSchema.construct_fixed_of_rows :
    let defaulting (value : String) : Field := .primitive .string
      ⟨true, false, { Options.empty with default := some (.string value) }⟩
    let counted : Field := .primitive .number ⟨true, false, .empty⟩
    let row : FieldMap := (FieldMap.empty.insert "n" counted).insert "unit" (defaulting "kg")
    let map : FieldMap := (FieldMap.empty.insert "tag" (defaulting "x")).insert
      "rows" (.object row ⟨true, true, .empty⟩)
    let hooks : List (String × (Members → Except Fault Unit)) := [("tagged", fun members =>
      if Entries.has "tag" members then .ok () else .error (.missingField "tag" .root))]
    let document : Json := .object [("rows", .array
      [.object [("note", .null), ("n", .natural 1)]]), ("note", .null)]
    let result : Json := .object [("tag", .string "x"), ("rows", .array
      [.object [("n", .natural 1), ("unit", .string "kg")]])]
    map.Throughout Entries.Distinct ∧ ∃ built, ofMap .standard map = .ok built ∧
      (built.addHooks hooks).construct document = .ok result ∧
      (built.addHooks hooks).construct result = .ok result ∧
      ((built.addHooks hooks).validate result).valid = true ∧
      extract .standard map result = .ok result ∧
      extractValid .standard map result = .ok result := by
  intro defaulting counted row map hooks document result
  have distinct : map.Throughout Entries.Distinct := by
    apply FieldMap.throughout_distinct_insert
    · exact FieldMap.throughout_distinct_insert_primitive FieldMap.throughout_distinct_empty _ _ _
    · intro inner traits same
      cases same
      apply FieldMap.throughout_distinct_insert_primitive
      exact FieldMap.throughout_distinct_insert_primitive FieldMap.throughout_distinct_empty _ _ _
  obtain ⟨built, complete⟩ : ∃ built, ofMap .standard map = .ok built := ⟨_, rfl⟩
  have constructed : (built.addHooks hooks).construct document = .ok result := by
    cases complete
    rfl
  exact ⟨distinct, built, complete, constructed,
    construct_fixed distinct complete hooks constructed⟩

end

end FieldSchema
