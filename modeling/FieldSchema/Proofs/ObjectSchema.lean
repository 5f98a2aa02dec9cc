import FieldSchema.ObjectSchema
import FieldSchema.Proofs.Entries
import FieldSchema.Proofs.Extraction

/-! Object schemas as they are built from field maps. A map whose objects are not too deep always
has one, and its faults are those of an audit: the first broken rule between the fields of an
object, whether the field that declares it is there or not, hides what is wrong in the object. -/
namespace FieldSchema

/-- The hooks of an object, in the order of the fields that declare them. -/
def FieldMap.hooks (fields : FieldMap) : List Hook :=
  (fields.flatMap fun (name, field) => field.checks name).map .cross

mutual

def Entry.ofField : Field → Entry
  | .primitive type traits => .primitive type (ObjectSchema.primitiveTraits traits)
  | .object fields traits =>
    .object (ofFields fields) (FieldMap.hooks fields) (ObjectSchema.objectTraits traits)

def Entry.ofFields : List (String × Field) → List (String × Entry)
  | [] => []
  | (name, field) :: rest => (name, ofField field) :: ofFields rest

end

def ObjectSchema.ofFields (fields : FieldMap) : ObjectSchema :=
  ⟨Entry.ofFields fields, fields.hooks⟩

namespace ObjectSchema

variable {limit : Nat}

theorem walkFields_builder (fields : FieldMap) (path : Path) (out : ObjectSchema)
    (fits : fields.Fits limit path.depth) : builder.walkFields limit path none out fields =
      .ok ⟨out.fields ++ Entry.ofFields fields, out.hooks ++ fields.hooks⟩ := by
  induction fields using FieldMap.induction generalizing path out with
  | step fields ih =>
    have each : ∀ name field out, (name, field) ∈ fields →
        builder.walkField limit path name out none field =
          .ok (out.add name (Entry.ofField field) ((field.checks name).map .cross)) := by
      intro name field out member
      cases field with
      | primitive type traits => rfl
      | object inner traits =>
        have below := (FieldMap.everywhere_iff.mp fits).2 name inner traits member
        rw [← Path.depth_child] at below
        have walked : builder.level limit (path.child name) none
            (fun out => builder.walkFields limit (path.child name) none out inner) =
              .ok (ofFields inner) := by
          rw [Visitor.level_eq (FieldMap.everywhere_iff.mp below).1,
            ih name inner traits member _ _ below]
          rfl
        simp only [Visitor.walkField, walked]
        rfl
    clear ih fits
    induction fields generalizing out with
    | nil => simp [Visitor.walkFields, Entry.ofFields, FieldMap.hooks, pure, Except.pure]
    | cons entry rest ih =>
      obtain ⟨name, field⟩ := entry
      rw [Visitor.walkFields, each name field out (List.mem_cons_self ..)]
      refine (ih _ fun other field out member =>
        each other field out (List.mem_cons_of_mem _ member)).trans ?_
      simp [add, Entry.ofFields, FieldMap.hooks]

/-- A map has an object schema exactly if none of its objects is too deep. -/
theorem ofMap_eq_ok_iff {settings : Settings} {map : FieldMap} {schema : ObjectSchema} :
    ofMap settings map = .ok schema ↔
      map.Fits settings.maxDepth 0 ∧ schema = ofFields map := by
  have built : map.Fits settings.maxDepth 0 → ofMap settings map = .ok (ofFields map) := by
    intro fits
    rw [ofMap, Visitor.visit, Visitor.walk, Visitor.level_eq (FieldMap.everywhere_iff.mp fits).1,
      walkFields_builder map .root _ fits]
    rfl
  constructor
  · intro complete
    have fits : map.Fits settings.maxDepth 0 := Visitor.fits_of_level map complete
    exact ⟨fits, Except.ok.inj (complete.symm.trans (built fits))⟩
  · rintro ⟨fits, rfl⟩
    exact built fits

end ObjectSchema

/-- Single values, and the first broken rule between the fields of an object, which hides what is
wrong in the object. -/
def Audit.hooked : Audit where
  value := plain.value
  object level := (level.fields.flatMap fun (name, field) => level.broken name field).take 1
  hides := true

namespace Hook

theorem firstFault_cross (members : Members) (path : Path) (checks : List Rule.CrossCheck) :
    firstFault members path (checks.map .cross) =
      (checks.filterMap fun check => Entry.fault? (check.check members path)).head? := by
  induction checks with
  | nil => rfl
  | cons check rest ih =>
    rw [List.map_cons, firstFault, run, List.filterMap_cons]
    cases check.check members path with
    | ok => exact ih
    | error => rfl

end Hook

namespace Entry

theorem guardedFaults_eq_close (level : Level) (fields : List Fault) :
    guardedFaults level.members level.path level.fields.hooks fields =
      Audit.hooked.close fields (Audit.hooked.object level) := by
  have own : Audit.hooked.object level =
      (Hook.firstFault level.members level.path level.fields.hooks).toList := by
    rw [FieldMap.hooks, Hook.firstFault_cross, List.filterMap_flatMap]
    dsimp only [Audit.hooked, Level.broken]
    generalize List.flatMap _ level.fields = faults
    cases faults <;> rfl
  rw [guardedFaults, own]
  cases Hook.firstFault level.members level.path level.fields.hooks with
  | some fault => rfl
  | none => exact (Audit.close_nil _ _).symm

mutual

theorem faults_ofField (name : String) (path : Path) (value : Json) :
    (field : Field) → faults name path value (ofField field) =
      Audit.hooked.field path name value field
  | .primitive type traits => by
    unfold ofField faults Audit.field
    cases isArray : traits.isArray with
    | true =>
      cases value <;> simp [ObjectSchema.primitiveTraits, isArray, Place.valueFaults, Place.found,
        Place.elements, Field.isArray, Field.traits, Except.map, Found.values, Audit.hooked,
        Audit.plain, Place.mismatch, Field.label, Field.base]
    | false => simp [ObjectSchema.primitiveTraits, isArray, Place.valueFaults, Place.found,
        Field.isArray, Field.traits, Found.values, Audit.hooked, Audit.plain]
  | .object fields traits => by
    have inner : ∀ here members, guardedFaults members here (FieldMap.hooks fields)
        (fieldFaults here members (ofFields fields)) =
          Audit.hooked.level ⟨here, members, fields⟩ := by
      intro here members
      rw [fieldFaults_ofFields here members fields]
      exact guardedFaults_eq_close ⟨here, members, fields⟩ _
    unfold ofField faults Audit.field
    cases isArray : traits.isArray with
    | true =>
      simp only [ObjectSchema.objectTraits, isArray, Place.objectFaults, Field.isArray,
        Field.traits, if_true]
      cases value with
      | array items =>
        refine List.flatMap_congr fun ⟨item, i⟩ _ => ?_
        cases item with
        | object members => exact inner _ members
        | null | bool | number | string | array => rfl
      | null | bool | number | string | object =>
        simp [Place.elements, Place.mismatch, Field.label, Field.base, Field.isArray, Field.traits,
          isArray]
    | false =>
      simp only [ObjectSchema.objectTraits, isArray, Place.objectFaults, Field.isArray,
        Field.traits]
      cases value with
      | object members => exact inner _ members
      | null | bool | number | string | array => rfl

theorem fieldFaults_ofFields (path : Path) (members : Members) :
    (fields : List (String × Field)) → fieldFaults path members (ofFields fields) =
      Audit.hooked.fields path members fields
  | [] => rfl
  | (name, field) :: rest => by
    rw [ofFields, fieldFaults, Audit.fields, fieldFaults_ofFields path members rest]
    cases members.lookup name with
    | none => cases field <;> rfl
    | some value => exact congrArg (· ++ _) (faults_ofField name path value field)

end

end Entry

/-! Filling in, field by field. -/

theorem Entry.fill_object (value : Json) (fields : FieldMap) (traits : Traits) :
    fill value (ofField (.object fields traits)) = value.mapObjects traits.isArray fun members =>
      fillFields members (ofFields fields) := by
  unfold ofField fill Json.mapObjects
  by_cases isArray : traits.isArray = true
  · simp only [ObjectSchema.objectTraits, isArray, if_true]
    cases value with
    | array items =>
      refine congrArg Json.array (List.map_congr_left fun item _ => ?_)
      cases item <;> rfl
    | null | bool | number | string | object => rfl
  · simp only [ObjectSchema.objectTraits, isArray]
    cases value <;> rfl

/-- What an entry has once defaults are filled in, if anything. -/
def Entry.filled (members : Members) (name : String) (entry : Entry) : Option Json :=
  match members.lookup name with
  | some value => some (fill value entry)
  | none => entry.traits.default

theorem Entry.fillFields_eq_filterMap (members : Members) (fields : List (String × Entry)) :
    fillFields members fields = fields.filterMap fun (name, entry) =>
      (entry.filled members name).map (name, ·) := by
  induction fields with
  | nil => rfl
  | cons first rest ih =>
    obtain ⟨name, entry⟩ := first
    rw [fillFields, ih, List.filterMap_cons]
    dsimp only [Entry.filled]
    cases members.lookup name with
    | some value => rfl
    | none => cases entry.traits.default <;> rfl

theorem Entry.ofFields_eq_map (fields : FieldMap) :
    ofFields fields = fields.map fun (name, field) => (name, ofField field) := by
  induction fields with
  | nil => rfl
  | cons first rest ih => rw [ofFields, ih, List.map_cons]

/-- The entry of a name is that of the field. -/
theorem ObjectSchema.field?_ofFields (map : FieldMap) (name : String) :
    (ofFields map).field? name = (map.lookup name).map Entry.ofField := by
  rw [field?, ofFields, Entry.ofFields_eq_map]
  exact Entries.lookup_mapValues name (fun _ => Entry.ofField) map

/-- What is built has under a name what its entry makes of it; what has no entry is left out. -/
theorem ObjectSchema.lookup_fillFields {schema : ObjectSchema}
    (distinct : Entries.Distinct schema.fields) (members : Members) (name : String) :
    (Entry.fillFields members schema.fields).lookup name =
      (schema.field? name).bind (Entry.filled members name) := by
  rw [Entry.fillFields_eq_filterMap, field?]
  exact Entries.lookup_filterMapValues distinct fun name entry => entry.filled members name

/-- What a field has once defaults are filled in, if anything. -/
def Field.filled (members : Members) (name : String) (field : Field) : Option Json :=
  match members.lookup name with
  | some value => some (Entry.fill value (Entry.ofField field))
  | none => (Entry.ofField field).traits.default

theorem Entry.fillFields_ofFields (members : Members) (fields : FieldMap) :
    fillFields members (ofFields fields) = fields.filterMap fun (name, field) =>
      (field.filled members name).map (name, ·) := by
  rw [fillFields_eq_filterMap, ofFields_eq_map, List.filterMap_map]
  rfl

/-- The report of an object schema that was built from a map. -/
theorem ObjectSchema.faults_ofFields (map : FieldMap) (document : Json) :
    (ofFields map).faults document = Audit.hooked.document map document := by
  cases document with
  | object members =>
    rw [faults, ofFields, Entry.fieldFaults_ofFields]
    exact Entry.guardedFaults_eq_close ⟨.root, members, map⟩ _
  | null | bool | number | string | array => rfl

end FieldSchema
