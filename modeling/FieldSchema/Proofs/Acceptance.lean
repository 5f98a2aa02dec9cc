import FieldSchema.Compiler
import FieldSchema.Proofs.Agreement
import FieldSchema.Proofs.ObjectSchema

/-! Which documents are accepted, by validating extraction and by the object schema of the same map.
The two differ in the rules of fields that are absent: extraction leaves them out, and the object
schema has them fail unless there is no row to look at. -/
namespace FieldSchema

/-- The rules of absent fields have no row to look at: some of the references are arrays, and these
are empty. -/
def Level.Excused (level : Level) : Prop :=
  ∀ name type traits references, (name, Field.primitive type traits) ∈ level.fields →
    traits.options.atLeast = some references → level.members.lookup name = none →
      Rule.CrossCheck.NoRows level.members references

namespace Audit

variable {level : Level}

theorem broken_eq_nil_iff {name : String} {field : Field} :
    level.broken name field = [] ↔
      ∀ check ∈ field.checks name, check.admits level.members = true := by
  have fault : ∀ check : Rule.CrossCheck,
      Entry.fault? (check.check level.members level.path) = none ↔
        check.admits level.members = true := by
    intro check
    unfold Rule.CrossCheck.check
    split <;> simp_all [Entry.fault?]
  simp only [Level.broken, List.filterMap_eq_nil_iff, fault]

theorem hooked_object_eq_nil_iff : hooked.object level = [] ↔
    ∀ name field, (name, field) ∈ level.fields → level.broken name field = [] := by
  simp [hooked, List.flatMap_eq_nil_iff]

theorem checked_object_eq_nil_iff : checked.object level = [] ↔
    ∀ name field, (name, field) ∈ level.fields → Entries.has name level.members = true →
      level.broken name field = [] := by
  simp [checked, List.flatMap_eq_nil_iff]

/-- What the object schema looks at beyond extraction are the rules of absent fields. -/
theorem hooked_object_eq_nil_iff_excused (checked : Audit.checked.object level = []) :
    hooked.object level = [] ↔ level.Excused := by
  rw [hooked_object_eq_nil_iff]
  constructor
  · intro all name type traits references member declared absent
    have admitted := broken_eq_nil_iff.mp (all _ _ member) _
      (Field.mem_checks_iff.mpr ⟨type, traits, references, rfl, declared, rfl⟩)
    exact (Rule.CrossCheck.atLeast_admits_iff_of_absent absent).mp admitted
  · intro excused name field member
    cases present : Entries.has name level.members with
    | true => exact checked_object_eq_nil_iff.mp checked name field member present
    | false =>
      refine broken_eq_nil_iff.mpr fun check declared => ?_
      obtain ⟨type, traits, references, rfl, some, rfl⟩ := Field.mem_checks_iff.mp declared
      have absent : level.members.lookup name = none := by simpa [Entries.has] using present
      exact (Rule.CrossCheck.atLeast_admits_iff_of_absent absent).mpr
        (excused name type traits references member some absent)

/-- A value that breaks no rule is of its type. -/
theorem shape_value_of_plain (place : Place) (value : Json) (none : plain.value place value = []) :
    shape.value place value = [] := by
  obtain ⟨name, path, field⟩ := place
  cases field with
  | object => rfl
  | primitive type traits =>
    simp only [plain, Entry.primitiveFaults] at none
    simp only [shape]
    split at none
    · next typed => rw [if_pos typed]
    · cases none

variable {map : FieldMap} {document : Json}

/-- What breaks no rule has the right form. -/
theorem shape_of_checked (none : checked.document map document = []) :
    shape.document map document = [] := by
  obtain ⟨members, rfl, none⟩ := document_eq_nil_iff.mp none
  exact level_eq_nil_mono .checked .shape shape_value_of_plain none fun _ _ => rfl

/-- What holds of every declared rule holds of those of the fields that are there. -/
theorem checked_of_hooked (none : hooked.document map document = []) :
    checked.document map document = [] := by
  obtain ⟨members, rfl, none⟩ := document_eq_nil_iff.mp none
  refine level_eq_nil_mono .hooked .checked (fun _ _ none => none) none fun last reaches => ?_
  have own := hooked_object_eq_nil_iff.mp (object_eq_nil_of_reaches none reaches)
  exact checked_object_eq_nil_iff.mpr fun name field member _ => own name field member

end Audit

section

variable {settings : Settings} {map : FieldMap} {document : Json}

/-- Extraction accepts what breaks no rule, where a rule between fields is one of a field that is
there. -/
theorem extractValid_isOk_iff (sound : map.Everywhere (FieldMap.Sound settings.maxDepth) 0) :
    (∃ extracted, extractValid settings map document = .ok extracted) ↔
      Audit.checked.document map document = [] := by
  rw [extractValid_eq_of_resolved (FieldMap.fits_of_sound sound)
    (FieldMap.distinct_of_sound sound) (FieldMap.resolved_of_sound sound)]
  simp only [failFast_eq_ok_iff, List.append_eq_nil_iff, exists_and_left, exists_eq', and_true]
  exact and_iff_right_of_imp Audit.shape_of_checked

theorem ObjectSchema.validate_valid_iff :
    ((ofFields map).validate document).valid = true ↔ Audit.hooked.document map document = [] := by
  rw [validate_eq, faults_ofFields]
  exact List.isEmpty_iff

/-- No document that the object schema accepts is refused by extraction. -/
theorem extractValid_of_validate {schema : Json}
    (complete : Source.normalizeValue settings schema = .ok map) :
    ∃ built, ObjectSchema.ofMap settings map = .ok built ∧
      ((built.validate document).valid = true →
        ∃ extracted, extractValid settings map document = .ok extracted) := by
  have sound := Source.normalizeValue_sound complete
  have built := ObjectSchema.ofMap_eq_ok_iff.mpr ⟨FieldMap.fits_of_sound sound, rfl⟩
  refine ⟨.ofFields map, built, fun valid => ?_⟩
  rw [ObjectSchema.validate_valid_iff, Audit.document_eq_nil_iff] at valid
  obtain ⟨members, rfl, none⟩ := valid
  rw [extractValid_isOk_iff sound]
  refine Audit.level_eq_nil_mono .hooked .checked (fun _ _ none => none) none
    fun last reaches => ?_
  have own := Audit.object_eq_nil_of_reaches none reaches
  rw [Audit.hooked_object_eq_nil_iff] at own
  exact Audit.checked_object_eq_nil_iff.mpr fun name field member _ => own name field member

/-- The field that declares the rule is left out beside an empty array, which asks for no row. -/
theorem extractValid_of_validate_empty_array :
    let schema : Json := .object [("optional", .object [("number", .object
      [("a", .object [("greaterOrEqualTo", .string "b")]),
        ("b", .object [("array", .bool true)])])])]
    let document : Json := .object [("c", .null), ("b", .array [])]
    ∃ map built, Source.normalizeValue .standard schema = .ok map ∧
      ObjectSchema.ofMap .standard map = .ok built ∧ (built.validate document).valid = true ∧
        ∃ extracted, extractValid .standard map document = .ok extracted := by
  intro schema document
  obtain ⟨map, complete⟩ : ∃ map, Source.normalizeValue .standard schema = .ok map := ⟨_, rfl⟩
  obtain ⟨built, made, accepts⟩ := @extractValid_of_validate .standard map document schema complete
  have valid : (built.validate document).valid = true := by
    cases complete
    cases made
    rfl
  exact ⟨map, built, complete, made, valid, accepts valid⟩

namespace Compiler

/-- What extraction accepts the object schema accepts as well, exactly if the rules of absent fields
are excused in every object of the document that is described. -/
theorem validate_of_extractValid_iff {compiler : Compiler} {schema extracted : Json}
    (accepted : compiler.extractValid (.written schema) document = .ok extracted) :
    ∃ map members built, compiler.normalize (.written schema) = .ok map ∧
      document = .object members ∧ compiler.objectSchema (.written schema) = .ok built ∧
      ((built.validate document).valid = true ↔
        ∀ level, Level.Reaches ⟨.root, members, map⟩ level → level.Excused) := by
  obtain ⟨map, complete, accepted⟩ := bind_eq_ok_iff.mp accepted
  have sound : map.Everywhere (FieldMap.Sound compiler.settings.maxDepth) 0 :=
    Source.normalizeValue_sound complete
  have none := (extractValid_isOk_iff sound).mp ⟨extracted, accepted⟩
  obtain ⟨members, rfl, none⟩ := Audit.document_eq_nil_iff.mp none
  have own : ∀ level, Level.Reaches ⟨.root, members, map⟩ level →
      Audit.checked.object level = [] := fun level => Audit.object_eq_nil_of_reaches none
  refine ⟨map, members, .ofFields map, complete, rfl, ?_, ?_⟩
  · rw [objectSchema, complete]
    exact ObjectSchema.ofMap_eq_ok_iff.mpr ⟨FieldMap.fits_of_sound sound, rfl⟩
  rw [ObjectSchema.validate_valid_iff]
  constructor
  · intro valid level reaches
    have none := Audit.object_eq_nil_of_reaches valid reaches
    exact (Audit.hooked_object_eq_nil_iff_excused (own level reaches)).mp none
  · intro excused
    refine Audit.level_eq_nil_mono .checked .hooked (fun _ _ none => none) none
      fun last reaches => ?_
    exact (Audit.hooked_object_eq_nil_iff_excused (own last reaches)).mpr (excused last reaches)

/-- The empty array excuses the field that is absent, and both accept the document. -/
theorem validate_of_extractValid_empty_array :
    let schema : Json := .object
      [("required", .object [("number", .object [("b", .object [("array", .bool true)])])]),
        ("optional", .object [("number", .object
          [("a", .object [("greaterOrEqualTo", .string "b")])])])]
    let document : Json := .object [("b", .array [])]
    standard.extractValid (.written schema) document = .ok document ∧
      ∃ map members built, standard.normalize (.written schema) = .ok map ∧
        document = .object members ∧ standard.objectSchema (.written schema) = .ok built ∧
        ((built.validate document).valid = true ↔
          ∀ level, Level.Reaches ⟨.root, members, map⟩ level → level.Excused) := by
  intro schema document
  have accepted : standard.extractValid (.written schema) document = .ok document := rfl
  exact ⟨accepted, validate_of_extractValid_iff accepted⟩

/-- The field that declares the rule is optional and absent: extraction accepts the document, and
the object schema refuses it. -/
theorem absent_bound_refused :
    let schema : Json := .object
      [("required", .object [("number", .object [("b", .object [])])]),
        ("optional", .object [("number", .object
          [("a", .object [("greaterOrEqualTo", .string "b")])])])]
    let document : Json := .object [("b", .natural 1)]
    standard.extractValid (.written schema) document = .ok document ∧
      ∃ built, standard.objectSchema (.written schema) = .ok built ∧
        (built.validate document).valid = false :=
  ⟨rfl, _, rfl, rfl⟩

end Compiler

end

end FieldSchema
