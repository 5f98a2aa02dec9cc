import FieldSchema.Proofs.Extraction
import FieldSchema.Proofs.WellFormed

/-! What extraction accepts, and what it gives. A document conforms to a map if in every object that
is described each declared field is there in its form, or is absent and not required; extraction
accepts the documents that conform, and gives the declared fields that are there. -/
namespace FieldSchema

namespace Field

mutual

/-- The value of a field has the form of the field: it is of its type, or it is an object that
conforms, or an array of such values. -/
def Conforms (value : Json) : Field → Prop
  | .primitive type traits => type.Takes traits.isArray value
  | .object fields traits =>
    if traits.isArray then
      ∃ items, value = .array items ∧
        ∀ item ∈ items, ∃ members, item = .object members ∧ FieldsConform members fields
    else ∃ members, value = .object members ∧ FieldsConform members fields

/-- Each of the declared fields is there in its form, or is absent and not required. -/
def FieldsConform (members : Members) : List (String × Field) → Prop
  | [] => True
  | (name, field) :: rest =>
    (match members.lookup name with
      | some value => field.Conforms value
      | none => field.required = false) ∧ FieldsConform members rest

end

theorem fieldsConform_iff {members : Members} {fields : FieldMap} :
    FieldsConform members fields ↔ ∀ name field, (name, field) ∈ fields →
      match members.lookup name with
      | some value => field.Conforms value
      | none => field.required = false := by
  induction fields with
  | nil => simp [FieldsConform]
  | cons entry rest ih =>
    obtain ⟨name, field⟩ := entry
    simp [FieldsConform, ih, or_imp, forall_and]

end Field

namespace Audit

theorem valueFaults_shape_eq_nil_iff {name : String} {path : Path} {type : Primitive}
    {traits : Traits} {value : Json} :
    Place.valueFaults ⟨name, path, .primitive type traits⟩
        (shape.value ⟨name, path, .primitive type traits⟩) value = [] ↔
      type.Takes traits.isArray value := by
  have each (item : Json) :
      shape.value ⟨name, path, .primitive type traits⟩ item = [] ↔ type.holds item = true := by
    simp [shape]
  rw [Place.valueFaults_eq_nil_iff]
  simp only [each]
  obtain ⟨required, isArray, options⟩ := traits
  cases isArray with
  | true =>
    cases value <;> simp [Place.found, Field.isArray, Field.traits, Place.elements, Except.map,
      Found.values, Primitive.Takes]
  | false => simp [Place.found, Field.isArray, Field.traits, Found.values, Primitive.Takes]

/-- Nothing is wrong with the form of an object exactly if the object conforms. -/
theorem shape_level_eq_nil_iff (fields : FieldMap) {path : Path} {members : Members} :
    shape.level ⟨path, members, fields⟩ = [] ↔ Field.FieldsConform members fields := by
  induction fields using FieldMap.induction generalizing path members with
  | step fields ih =>
    rw [level_eq_nil_iff, Field.fieldsConform_iff]
    refine (and_iff_right rfl).trans (forall₃_congr fun name field member => ?_)
    unfold entry
    cases members.lookup name with
    | none => simp
    | some value =>
      cases field with
      | primitive type traits => exact valueFaults_shape_eq_nil_iff
      | object inner traits =>
        dsimp only
        rw [Audit.field, Field.Conforms]
        exact Place.objectFaults_eq_nil_iff_forms fun here below => ih name inner traits member

end Audit

/-- Extraction is the typed projection to a map: it succeeds exactly for the objects that conform,
and gives their declared fields, in the order of the declarations at every level. -/
theorem extract_eq_ok_iff {settings : Settings} {map : FieldMap}
    (within : map.depth ≤ settings.maxDepth) {document result : Json} :
    extract settings map document = .ok result ↔ ∃ members, document = .object members ∧
      Field.FieldsConform members map ∧
        result = .object (Field.pickFields (fun _ => true) members map) := by
  rw [extract, extractKept_eq (FieldMap.fits_of_depth_le within), failFast_eq_ok_iff,
    Audit.document_eq_nil_iff, Extraction.keeps_none]
  constructor
  · rintro ⟨⟨members, rfl, none⟩, rfl⟩
    exact ⟨members, rfl, (Audit.shape_level_eq_nil_iff map).mp none, rfl⟩
  · rintro ⟨members, rfl, conform, rfl⟩
    exact ⟨⟨members, rfl, (Audit.shape_level_eq_nil_iff map).mpr conform⟩, rfl⟩

/-- Rows that hold more than is declared, with an optional field that is absent; but the field may
not be null, which is no value of its type. -/
theorem extract_eq_ok_iff_of_rows :
    let settings : Settings := ⟨2, .reject, "_ref_"⟩
    let map : FieldMap :=
      [("rows", .object [("n", .primitive .number ⟨false, false, .empty⟩),
          ("tags", .primitive .string ⟨true, true, .empty⟩)] ⟨true, true, .empty⟩),
        ("on", .primitive .boolean ⟨false, false, .empty⟩)]
    let rows (row : Members) : Members := [("on", .bool true), ("other", .null),
      ("rows", .array [.object [("other", .null), ("tags", .array [])], .object row])]
    let row : Members := [("tags", .strings ["x"]), ("n", .natural 1)]
    let extracted : Json := .object
      [("rows", .array [.object [("tags", .array [])],
        .object [("n", .natural 1), ("tags", .strings ["x"])]]), ("on", .bool true)]
    map.depth ≤ settings.maxDepth ∧ Field.FieldsConform (rows row) map ∧
      extract settings map (.object (rows row)) = .ok extracted ∧
      ¬Field.FieldsConform (rows (("n", .null) :: row)) map := by
  intro settings map rows row extracted
  have within : map.depth ≤ settings.maxDepth := Nat.le_refl 2
  have complete : extract settings map (.object (rows row)) = .ok extracted := rfl
  obtain ⟨_, same, conform, -⟩ := (extract_eq_ok_iff within).mp complete
  cases same
  refine ⟨within, conform, complete, fun accepted => ?_⟩
  have wrong := (extract_eq_ok_iff within).mpr ⟨_, rfl, accepted, rfl⟩
  cases wrong

end FieldSchema
