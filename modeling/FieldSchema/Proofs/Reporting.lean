import FieldSchema.ObjectSchema
import Mathlib.Data.List.Basic

/-! Reports as they are put together. A check adds what it finds behind the faults that a report has,
and nothing that was found before changes what it finds; so the report on a document is the one on the
faults of its parts, field by field and element by element. -/
namespace FieldSchema

namespace Report

/-- The report on what has these faults. -/
def ofFaults (faults : List Fault) : Report := ⟨faults.isEmpty, faults⟩

theorem ofFaults_append (first second : List Fault) :
    ofFaults (first ++ second) = (ofFaults first).merge (ofFaults second) := by
  cases first <;> rfl

theorem merge_assoc (a b c : Report) : (a.merge b).merge c = a.merge (b.merge c) := by
  rw [merge, merge, merge, merge, Bool.and_assoc, List.append_assoc]

theorem merge_success (report : Report) : report.merge (ofFaults []) = report := by
  obtain ⟨valid, faults⟩ := report
  simp [merge, ofFaults]

theorem success_merge (report : Report) : success.merge report = report := by
  rw [merge, success, Bool.true_and, List.nil_append]

theorem add_eq_merge (fault : Fault) (report : Report) :
    report.add fault = report.merge (ofFaults [fault]) := by
  rw [add, merge, ofFaults, List.isEmpty_cons, Bool.and_false]

/-- Steps that add the faults of one part add the faults of all parts, in their order. -/
theorem foldl_eq_merge {α : Type} {step : Report → α → Report} {faults : α → List Fault}
    (each : ∀ report part, step report part = report.merge (ofFaults (faults part)))
    (parts : List α) (report : Report) :
    parts.foldl step report = report.merge (ofFaults (parts.flatMap faults)) := by
  induction parts generalizing report with
  | nil => exact (merge_success report).symm
  | cons part rest ih =>
    rw [List.foldl_cons, each, ih, merge_assoc, ← ofFaults_append, List.flatMap_cons]

/-- Faults that are found one part after the other make the reports on the parts, merged. -/
theorem ofFaults_flatMap {α : Type} (parts : List α) (faults : α → List Fault) :
    ofFaults (parts.flatMap faults) =
      (parts.map fun part => ofFaults (faults part)).foldl merge success := by
  rw [List.foldl_map, foldl_eq_merge fun report part => rfl, success_merge]

end Report

namespace Entry

def fault? : Except Fault Unit → Option Fault
  | .ok () => none
  | .error fault => some fault

/-- The faults of one value of a primitive field. -/
def primitiveFaults (name : String) (path : Path) (type : Primitive) (traits : EntryTraits)
    (value : Json) : List Fault :=
  if type.holds value then
    (traits.allowed.bind fun names => fault? (Rule.checkAllowed name path names value)).toList ++
      traits.limits.filterMap fun limit => fault? (limit.check name path value)
  else [.typeMismatch name path value.compact type.name]

/-- The faults of an object, given those of its fields. -/
def guardedFaults (document : Members) (path : Path) (hooks : List Hook) (fields : List Fault) :
    List Fault :=
  match Hook.firstFault document path hooks with
  | some fault => [fault]
  | none => fields

/-- The faults of what should be an object, given those of objects. -/
def objectFaults (name : String) (path : Path) (inner : Members → List Fault) : Json → List Fault
  | .object members => inner members
  | value => [.typeMismatch name path value.compact Tag.object.name]

mutual

/-- The faults of the value of the field `name` in the object at `path`. -/
def faults (name : String) (path : Path) (value : Json) : Entry → List Fault
  | .primitive type traits =>
    if traits.isArray then
      match value with
      | .array items => items.flatMap (primitiveFaults name path type traits)
      | _ => [.typeMismatch name path value.compact (typeLabel type.name true)]
    else primitiveFaults name path type traits value
  | .object fields hooks traits =>
    let inner (here : Path) (members : Members) : List Fault :=
      guardedFaults members here hooks (fieldFaults here members fields)
    if traits.isArray then
      match value with
      | .array items =>
        items.zipIdx.flatMap fun (item, i) =>
          objectFaults name path (inner ((path.child name).element i)) item
      | _ => [.typeMismatch name path value.compact (typeLabel Tag.object.name true)]
    else objectFaults name path (inner (path.child name)) value

def fieldFaults (path : Path) (document : Members) : List (String × Entry) → List Fault
  | [] => []
  | (name, entry) :: rest =>
    (match document.lookup name with
      | some value => faults name path value entry
      | none => if entry.traits.required then [.missingField name path] else []) ++
      fieldFaults path document rest

end

end Entry

/-- The faults of a document, outermost hooks first. -/
def ObjectSchema.faults (schema : ObjectSchema) : Json → List Fault
  | .object members =>
    Entry.guardedFaults members .root schema.hooks (Entry.fieldFaults .root members schema.fields)
  | value => [.notAnObject value.kind.name]

open Report

theorem note_eq_merge (outcome : Except Fault Unit) (report : Report) :
    report.note outcome = report.merge (ofFaults (Entry.fault? outcome).toList) := by
  cases outcome with
  | ok => exact (merge_success report).symm
  | error fault => exact add_eq_merge fault report

theorem guard_ofFaults (document : Members) (path : Path) (hooks : List Hook) (fields : List Fault) :
    Hook.guard document path hooks (ofFaults fields) =
      ofFaults (Entry.guardedFaults document path hooks fields) := by
  rw [Hook.guard, Entry.guardedFaults]
  cases Hook.firstFault document path hooks <;> rfl

namespace Entry

theorem checkPrimitive_eq_merge (name : String) (path : Path) (type : Primitive)
    (traits : EntryTraits) (report : Report) (value : Json) :
    checkPrimitive name path type traits report value =
      report.merge (ofFaults (primitiveFaults name path type traits value)) := by
  have limits : ∀ report : Report,
      traits.limits.foldl (fun report limit => report.note (limit.check name path value)) report =
        report.merge (ofFaults (traits.limits.filterMap fun limit =>
          fault? (limit.check name path value))) := by
    intro report
    rw [List.filterMap_eq_flatMap_toList]
    exact foldl_eq_merge (fun report limit =>
      note_eq_merge (limit.check name path value) report) traits.limits report
  unfold checkPrimitive primitiveFaults
  cases type.holds value with
  | false => exact add_eq_merge _ report
  | true =>
    rw [if_pos rfl, if_pos rfl, limits]
    cases traits.allowed with
    | none => rfl
    | some names =>
      dsimp only [Option.bind_some]
      rw [note_eq_merge, merge_assoc, ← ofFaults_append]

theorem checkObject_eq_merge (name : String) (path : Path) {inner : Members → Report}
    {faults : Members → List Fault} (each : ∀ members, inner members = ofFaults (faults members))
    (report : Report) (value : Json) : checkObject name path inner report value =
      report.merge (ofFaults (objectFaults name path faults value)) := by
  cases value with
  | object members => rw [checkObject, objectFaults, each]
  | null | bool | number | string | array => exact add_eq_merge _ report

mutual

/-- A check adds the faults of the value, whatever was found before. -/
theorem check_eq_merge (name : String) (path : Path) (value : Json) :
    (entry : Entry) → (report : Report) →
      check name path value entry report = report.merge (ofFaults (faults name path value entry))
  | .primitive type traits, report => by
    have one := checkPrimitive_eq_merge name path type traits
    unfold check faults
    cases traits.isArray with
    | false => exact one report value
    | true =>
      cases value with
      | array items => exact foldl_eq_merge one items report
      | null | bool | number | string | object => exact add_eq_merge _ report
  | .object fields hooks traits, report => by
    have inside : ∀ here members,
        Hook.guard members here hooks (checkFields here members fields .success) =
          ofFaults (guardedFaults members here hooks (fieldFaults here members fields)) := by
      intro here members
      rw [checkFields_eq_merge here members fields, success_merge, guard_ofFaults]
    unfold check faults
    cases traits.isArray with
    | false => exact checkObject_eq_merge name path (inside _) report value
    | true =>
      cases value with
      | array items =>
        exact foldl_eq_merge (fun report entry =>
          checkObject_eq_merge name path (inside _) report entry.1) items.zipIdx report
      | null | bool | number | string | object => exact add_eq_merge _ report

theorem checkFields_eq_merge (path : Path) (document : Members) :
    (fields : List (String × Entry)) → (report : Report) →
      checkFields path document fields report =
        report.merge (ofFaults (fieldFaults path document fields))
  | [], report => (merge_success report).symm
  | (name, entry) :: rest, report => by
    rw [checkFields, checkFields_eq_merge path document rest, fieldFaults, ofFaults_append,
      ← merge_assoc]
    refine congrArg (Report.merge · _) ?_
    cases document.lookup name with
    | some value => exact check_eq_merge name path value entry report
    | none =>
      cases entry.traits.required with
      | true => exact add_eq_merge _ report
      | false => exact (merge_success report).symm

end

end Entry

/-- The report on a document is that on its faults. -/
theorem ObjectSchema.validate_eq (schema : ObjectSchema) (document : Json) :
    schema.validate document = ofFaults (schema.faults document) := by
  cases document with
  | object members =>
    rw [validate, Entry.checkFields_eq_merge, success_merge, guard_ofFaults, faults]
  | null | bool | number | string | array => rfl

theorem ObjectSchema.faults_validate (schema : ObjectSchema) (document : Json) :
    (schema.validate document).faults = schema.faults document := by
  rw [validate_eq, ofFaults]

end FieldSchema
