import FieldSchema.Proofs.FailFast
import FieldSchema.Proofs.Nesting
import FieldSchema.Walk
import Mathlib.Data.List.Basic

/-! All that is wrong with a document, listed in the order of the fields. What is looked for in a
single value and in an object as a whole is left open: an audit says it. Fields that are missing
and values of the wrong form are always listed, and nothing is looked for below them. -/
namespace FieldSchema

/-- A fault in the form of a document, which no rule has to be declared for. -/
def Fault.isStructural : Fault → Bool
  | .notAnObject .. | .missingField .. | .typeMismatch .. => true
  | _ => false

namespace Place

/-- The objects in the value of an object field, and where they stand. -/
inductive Holds (place : Place) : Json → Path → Members → Prop where
  | single {members : Members} : place.field.isArray = false →
    Holds place (.object members) (place.path.child place.name) members
  | element {items : List Json} {members : Members} {i : Nat} : place.field.isArray = true →
    items[i]? = some (.object members) →
      Holds place (.array items) ((place.path.child place.name).element i) members

/-- The faults of the value of an object field, with those of each object in it. -/
def objectFaults (place : Place) (inner : Path → Members → List Fault) (value : Json) :
    List Fault :=
  let below := place.path.child place.name
  if place.field.isArray then
    orFault (place.elements value) fun items => items.zipIdx.flatMap fun (item, i) =>
      orFault (place.members item) (inner (below.element i))
  else orFault (place.members value) (inner below)

/-- The faults of the value of a primitive field, with those of each value in it. -/
def valueFaults (place : Place) (each : Json → List Fault) (value : Json) : List Fault :=
  orFault (place.found value) fun found => found.values.flatMap each

end Place

/-- An object of a document and the fields that are declared for it. -/
structure Level where
  path : Path
  members : Members
  fields : FieldMap

/-- From an object to all those in it that have declared fields, itself included. -/
inductive Level.Reaches : Level → Level → Prop where
  | here {level : Level} : Reaches level level
  | inside {level last : Level} {name : String} {inner : FieldMap} {traits : Traits}
    {value : Json} {path : Path} {members : Members} :
    (name, .object inner traits) ∈ level.fields → level.members.lookup name = some value →
      Place.Holds ⟨name, level.path, .object inner traits⟩ value path members →
      Reaches ⟨path, members, inner⟩ last → Reaches level last

structure Audit where
  value : Place → Json → List Fault
  /-- What an object has wrong beside its fields. -/
  object : Level → List Fault
  /-- Whether the fields do not matter if an object has something wrong beside them. -/
  hides : Bool

namespace Audit

/-- The faults of an object: of its fields, and its own. -/
def close (audit : Audit) (fields own : List Fault) : List Fault :=
  if audit.hides && !own.isEmpty then own else fields ++ own

mutual

def field (audit : Audit) (path : Path) (name : String) (value : Json) : Field → List Fault
  | .primitive type traits =>
    let place : Place := ⟨name, path, .primitive type traits⟩
    place.valueFaults (audit.value place) value
  | .object inner traits =>
    let place : Place := ⟨name, path, .object inner traits⟩
    place.objectFaults (fun here members =>
      audit.close (audit.fields here members inner) (audit.object ⟨here, members, inner⟩)) value

def fields (audit : Audit) (path : Path) (members : Members) : List (String × Field) → List Fault
  | [] => []
  | (name, field) :: rest =>
    (match members.lookup name with
      | some value => audit.field path name value field
      | none => if field.required then [.missingField name path] else []) ++
      audit.fields path members rest

end

/-- One object with all below it. -/
def level (audit : Audit) (level : Level) : List Fault :=
  audit.close (audit.fields level.path level.members level.fields) (audit.object level)

/-- A whole document. -/
def document (audit : Audit) (map : FieldMap) : Json → List Fault
  | .object members => audit.level ⟨.root, members, map⟩
  | value => [.notAnObject value.kind.name]

/-- A field, whether it is there or not. -/
def entry (audit : Audit) (path : Path) (members : Members) (name : String) (field : Field) :
    List Fault :=
  match members.lookup name with
  | some value => audit.field path name value field
  | none => if field.required then [.missingField name path] else []

end Audit

namespace Place

variable {place : Place} {value : Json}

theorem members_eq_ok {members : Members} (read : place.members value = .ok members) :
    value = .object members := by
  cases value with
  | object others => cases read; rfl
  | null | bool | number | string | array => cases read

theorem elements_eq_ok {items : List Json} (read : place.elements value = .ok items) :
    value = .array items := by
  cases value with
  | array others => cases read; rfl
  | null | bool | number | string | object => cases read

theorem members_eq_error {fault : Fault} (failed : place.members value = .error fault) :
    value.object? = none ∧ fault = place.mismatch value Tag.object.name := by
  cases value with
  | object => cases failed
  | null | bool | number | string | array => cases failed; exact ⟨rfl, rfl⟩

theorem elements_eq_error {fault : Fault} (failed : place.elements value = .error fault) :
    value.array? = none ∧ fault = place.mismatch value place.field.label := by
  cases value with
  | array => cases failed
  | null | bool | number | string | object => cases failed; exact ⟨rfl, rfl⟩

theorem found_eq_error {fault : Fault} (failed : place.found value = .error fault) :
    place.field.isArray = true ∧ value.array? = none ∧
      fault = place.mismatch value place.field.label := by
  unfold found at failed
  split at failed
  · next isArray =>
    refine ⟨isArray, elements_eq_error ?_⟩
    cases read : place.elements value with
    | ok => rw [read] at failed; cases failed
    | error => rw [read] at failed; cases failed; rfl
  · cases failed

theorem single_holds {members : Members} (isArray : place.field.isArray = false)
    (read : place.members value = .ok members) :
    place.Holds value (place.path.child place.name) members := by
  cases members_eq_ok read
  exact .single isArray

theorem element_holds {items : List Json} {item : Json} {members : Members} {i : Nat}
    (isArray : place.field.isArray = true) (member : (item, i) ∈ items.zipIdx)
    (read : place.members item = .ok members) :
    place.Holds (.array items) ((place.path.child place.name).element i) members := by
  cases members_eq_ok read
  exact .element isArray (List.mem_zipIdx_iff_getElem?.mp member)

/-- The guard does not tell the objects in a value apart. -/
theorem Holds.depth {path : Path} {members : Members} (holds : place.Holds value path members) :
    path.depth = place.path.depth + Path.depth [.member place.name] := by
  cases holds with
  | single => exact Path.depth_child ..
  | element => rw [Path.depth_element, Path.depth_child]

theorem objectFaults_congr {inner other : Path → Members → List Fault}
    (same : ∀ path members, place.Holds value path members →
      inner path members = other path members) :
    place.objectFaults inner value = place.objectFaults other value := by
  unfold objectFaults
  split
  · next isArray =>
    refine orFault_congr fun items read => List.flatMap_congr fun ⟨item, i⟩ member => ?_
    cases elements_eq_ok read
    exact orFault_congr fun members read => same _ _ (element_holds isArray member read)
  · next single =>
    exact orFault_congr fun members read => same _ _ (single_holds (by simpa using single) read)

theorem objectFaults_eq_nil_iff {inner : Path → Members → List Fault} :
    place.objectFaults inner value = [] ↔ place.objectFaults (fun _ _ => []) value = [] ∧
      ∀ path members, place.Holds value path members → inner path members = [] := by
  constructor
  · intro none
    have each : ∀ path members, place.Holds value path members → inner path members = [] := by
      intro path members holds
      unfold objectFaults at none
      cases holds with
      | single isArray => simpa [isArray, Place.members] using none
      | @element items members i isArray found =>
        have member : (Json.object members, i) ∈ items.zipIdx :=
          List.mem_zipIdx_iff_getElem?.mpr found
        simp only [isArray, if_true, elements, orFault_ok] at none
        simpa [Place.members] using List.flatMap_eq_nil_iff.mp none _ member
    exact ⟨(objectFaults_congr each).symm.trans none, each⟩
  · rintro ⟨none, each⟩
    rwa [objectFaults_congr each]

/-- An object field is without faults if it holds an object that is, or an array of nothing but such
objects if it is an array. -/
theorem objectFaults_eq_nil_iff_forms {inner : Path → Members → List Fault} {good : Members → Prop}
    (faultless : ∀ path members, inner path members = [] ↔ good members) :
    place.objectFaults inner value = [] ↔ if place.field.isArray then
      ∃ items, value = .array items ∧ ∀ item ∈ items, ∃ members, item = .object members ∧ good members
    else ∃ members, value = .object members ∧ good members := by
  have single (item : Json) (path : Path) : orFault (place.members item) (inner path) = [] ↔
      ∃ members, item = .object members ∧ good members := by
    cases item <;> simp [Place.members, faultless]
  unfold objectFaults
  dsimp only
  split
  · cases value with
    | array items =>
      simp only [Place.elements, orFault_ok, List.flatMap_eq_nil_iff, Prod.forall, single]
      constructor
      · intro all
        refine ⟨items, rfl, fun item member => ?_⟩
        obtain ⟨i, inside, rfl⟩ := List.mem_iff_getElem.mp member
        exact all _ i (List.mem_zipIdx_iff_getElem?.mpr (List.getElem?_eq_getElem inside))
      · rintro ⟨_, same, all⟩ item i member
        cases same
        exact all item (List.mem_of_getElem? (List.mem_zipIdx_iff_getElem?.mp member))
    | null | bool | number | string | object => simp [Place.elements]
  · exact single value _

theorem filter_objectFaults {inner : Path → Members → List Fault} {p : Fault → Bool}
    (kept : ∀ value expected, p (place.mismatch value expected) = true) :
    (place.objectFaults inner value).filter p =
      place.objectFaults (fun path members => (inner path members).filter p) value := by
  have keptMembers : ∀ item fault, place.members item = .error fault → p fault = true := by
    intro item fault failed
    rw [(members_eq_error failed).2]
    exact kept _ _
  have keptElements : ∀ fault, place.elements value = .error fault → p fault = true := by
    intro fault failed
    rw [(elements_eq_error failed).2]
    exact kept _ _
  unfold objectFaults
  split
  · rw [filter_orFault keptElements]
    refine orFault_congr fun items _ => ?_
    rw [List.filter_flatMap]
    exact List.flatMap_congr fun ⟨item, i⟩ _ => filter_orFault (keptMembers item)
  · exact filter_orFault (keptMembers value)

theorem valueFaults_eq_nil_iff {each : Json → List Fault} :
    place.valueFaults each value = [] ↔
      ∃ found, place.found value = .ok found ∧ ∀ item ∈ found.values, each item = [] := by
  simp [valueFaults, orFault_eq_nil_iff, List.flatMap_eq_nil_iff]

theorem valueFaults_congr {each other : Json → List Fault}
    (same : ∀ found, place.found value = .ok found →
      ∀ item ∈ found.values, each item = other item) :
    place.valueFaults each value = place.valueFaults other value :=
  orFault_congr fun found read => List.flatMap_congr (same found read)

theorem filter_valueFaults {each : Json → List Fault} {p : Fault → Bool}
    (kept : ∀ value expected, p (place.mismatch value expected) = true) :
    (place.valueFaults each value).filter p =
      place.valueFaults (fun item => (each item).filter p) value := by
  have keptFound : ∀ fault, place.found value = .error fault → p fault = true := by
    intro fault failed
    rw [(found_eq_error failed).2.2]
    exact kept _ _
  rw [valueFaults, filter_orFault keptFound]
  exact orFault_congr fun found _ => List.filter_flatMap

end Place

/-- An object in a document is described by an object of the map, as many levels below. -/
theorem Level.Reaches.nested {level last : Level} (reaches : level.Reaches last) :
    ∃ path, Nested level.fields path last.fields ∧
      last.path.depth = level.path.depth + path.depth := by
  induction reaches with
  | here => exact ⟨[], .here, rfl⟩
  | @inside level _ name _ _ _ _ _ member _ holds _ ih =>
    obtain ⟨path, nested, deep⟩ := ih
    refine ⟨_, .inside member nested, ?_⟩
    rw [deep, holds.depth, Path.depth_cons (.member name) path, Nat.add_assoc]

namespace Audit

theorem close_nil (audit : Audit) (fields : List Fault) : audit.close fields [] = fields := by
  simp [close]

theorem close_eq_nil_iff {audit : Audit} {fields own : List Fault} :
    audit.close fields own = [] ↔ fields = [] ∧ own = [] := by
  unfold close
  split
  · next hidden => cases own <;> simp at hidden ⊢
  · exact List.append_eq_nil_iff

/-- The faults of the fields come first where they are not hidden. -/
theorem level_eq_append {audit : Audit} (shown : audit.hides = false) (level : Level) :
    audit.level level =
      audit.fields level.path level.members level.fields ++ audit.object level := by
  simp [Audit.level, close, shown]

theorem fields_eq_flatMap (audit : Audit) (path : Path) (members : Members)
    (fields : List (String × Field)) : audit.fields path members fields =
      fields.flatMap fun (name, field) => audit.entry path members name field := by
  induction fields with
  | nil => rfl
  | cons entry rest ih => rw [Audit.fields, ih]; rfl

theorem level_eq_nil_iff {audit : Audit} {level : Level} :
    audit.level level = [] ↔ audit.object level = [] ∧ ∀ name field, (name, field) ∈ level.fields →
      audit.entry level.path level.members name field = [] := by
  rw [Audit.level, close_eq_nil_iff, fields_eq_flatMap, List.flatMap_eq_nil_iff]
  simp only [Prod.forall]
  exact and_comm

theorem document_eq_nil_iff {audit : Audit} {map : FieldMap} {document : Json} :
    audit.document map document = [] ↔
      ∃ members, document = .object members ∧ audit.level ⟨.root, members, map⟩ = [] := by
  cases document with
  | object members => simp [Audit.document]
  | null | bool | number | string | array => simp [Audit.document]

/-- Where nothing is wrong with an object, nothing is wrong with the objects in it. -/
theorem level_eq_nil_of_reaches {audit : Audit} {level last : Level}
    (none : audit.level level = []) (reaches : level.Reaches last) : audit.level last = [] := by
  induction reaches with
  | here => exact none
  | inside member found holds _ ih =>
    apply ih
    have entry := (level_eq_nil_iff.mp none).2 _ _ member
    simp only [Audit.entry, found, Audit.field] at entry
    exact (Place.objectFaults_eq_nil_iff.mp entry).2 _ _ holds

theorem object_eq_nil_of_reaches {audit : Audit} {level last : Level}
    (none : audit.level level = []) (reaches : level.Reaches last) : audit.object last = [] :=
  (level_eq_nil_iff.mp (level_eq_nil_of_reaches none reaches)).1

/-- What an audit finds nothing in, another finds nothing in that looks for less in the values, if
it finds nothing in the objects themselves. -/
theorem level_eq_nil_mono (audit other : Audit)
    (values : ∀ place value, audit.value place value = [] → other.value place value = [])
    {level : Level} (none : audit.level level = [])
    (objects : ∀ last, level.Reaches last → other.object last = []) : other.level level = [] := by
  obtain ⟨path, members, fields⟩ := level
  induction fields using FieldMap.induction generalizing path members with
  | step fields ih =>
    refine level_eq_nil_iff.mpr ⟨objects _ .here, fun name field member => ?_⟩
    have entry := (level_eq_nil_iff.mp none).2 name field member
    unfold Audit.entry at entry ⊢
    cases found : members.lookup name with
    | none => simpa only [found] using entry
    | some value =>
      simp only [found] at entry ⊢
      cases field with
      | primitive type traits =>
        rw [Audit.field, Place.valueFaults_eq_nil_iff] at entry ⊢
        obtain ⟨found, read, each⟩ := entry
        exact ⟨found, read, fun item member => values _ _ (each item member)⟩
      | object inner traits =>
        rw [Audit.field, Place.objectFaults_eq_nil_iff] at entry ⊢
        refine ⟨entry.1, fun here below holds => ?_⟩
        refine ih name inner traits member here below (entry.2 here below holds) ?_
        exact fun last reaches => objects last (.inside member found holds reaches)

/-- Audits that look at values alike agree on an object if neither finds anything beside the
fields, in it or below. -/
theorem level_eq_of_quiet (audit other : Audit) (values : audit.value = other.value)
    (level : Level) (quiet : ∀ last, level.Reaches last →
      audit.object last = [] ∧ other.object last = []) :
    audit.level level = other.level level := by
  obtain ⟨path, members, fields⟩ := level
  induction fields using FieldMap.induction generalizing path members with
  | step fields ih =>
    have entries : audit.fields path members fields = other.fields path members fields := by
      rw [fields_eq_flatMap, fields_eq_flatMap]
      refine List.flatMap_congr fun ⟨name, field⟩ member => ?_
      dsimp only [Audit.entry]
      cases found : members.lookup name with
      | none => rfl
      | some value =>
        cases field with
        | primitive type traits => dsimp only [Audit.field]; rw [values]
        | object inner traits =>
          exact Place.objectFaults_congr fun here below holds =>
            ih name inner traits member here below fun last reaches =>
              quiet last (.inside member found holds reaches)
    rw [Audit.level, Audit.level, entries, (quiet _ .here).1, (quiet _ .here).2, close_nil, close_nil]

/-- Of the faults of an audit those that always are, and some of those of values and objects, are
the faults of an audit that looks for these. -/
theorem filter_level {audit other : Audit} {p : Fault → Bool}
    (shown : audit.hides = false) (otherShown : other.hides = false)
    (mismatches : ∀ (place : Place) value expected, p (place.mismatch value expected) = true)
    (missing : ∀ name path, p (.missingField name path) = true)
    (values : ∀ place value, (audit.value place value).filter p = other.value place value)
    (objects : ∀ level, (audit.object level).filter p = other.object level) (level : Level) :
    (audit.level level).filter p = other.level level := by
  obtain ⟨path, members, fields⟩ := level
  induction fields using FieldMap.induction generalizing path members with
  | step fields ih =>
    rw [level_eq_append shown, level_eq_append otherShown, List.filter_append, objects,
      fields_eq_flatMap, fields_eq_flatMap, List.filter_flatMap]
    refine congrArg (· ++ _) (List.flatMap_congr fun ⟨name, field⟩ member => ?_)
    dsimp only [Audit.entry]
    cases members.lookup name with
    | none => cases field.required <;> simp [missing]
    | some value =>
      cases field with
      | primitive type traits =>
        dsimp only [Audit.field]
        rw [Place.filter_valueFaults (mismatches _)]
        exact Place.valueFaults_congr fun _ _ item _ => values _ item
      | object inner traits =>
        dsimp only [Audit.field]
        rw [Place.filter_objectFaults (mismatches _)]
        exact Place.objectFaults_congr fun path members _ =>
          ih name inner traits member path members

theorem filter_document {audit other : Audit} {p : Fault → Bool}
    (shown : audit.hides = false) (otherShown : other.hides = false)
    (structural : ∀ fault, fault.isStructural = true → p fault = true)
    (values : ∀ place value, (audit.value place value).filter p = other.value place value)
    (objects : ∀ level, (audit.object level).filter p = other.object level) (map : FieldMap)
    (document : Json) : (audit.document map document).filter p = other.document map document := by
  cases document with
  | object members =>
    exact filter_level shown otherShown (fun _ _ _ => structural _ rfl)
      (fun _ _ => structural _ rfl) values objects _
  | null | bool | number | string | array =>
    simp [Audit.document, structural (.notAnObject _) rfl]

end Audit

end FieldSchema
