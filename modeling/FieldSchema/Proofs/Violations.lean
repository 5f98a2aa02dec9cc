import FieldSchema.Proofs.Agreement

/-! The rules that an extracted document breaks, listed as they are checked: field by field in the order
of the declarations, with all that is in an object field before the next field, and the rules between the
fields of an object after all of its fields. Validation ends with the first of them. -/
namespace FieldSchema

namespace Json

/-- The values in the value of a primitive field. -/
def valuesIn (isArray : Bool) (value : Json) : List Json :=
  if isArray then value.array?.getD [] else [value]

/-- The objects in the value of an object field, and where they stand. -/
def objectsIn (isArray : Bool) (below : Path) (value : Json) : List (Path × Members) :=
  if isArray then
    (value.array?.getD []).zipIdx.filterMap fun (item, i) => item.object?.map (below.element i, ·)
  else (value.object?.map (below, ·)).toList

end Json

namespace Found

/-- What is found in a value that is an array where the field is one. -/
def ofValue (isArray : Bool) (value : Json) : Found :=
  if isArray then .elements (value.array?.getD []) else .single value

theorem values_ofValue (isArray : Bool) (value : Json) :
    (ofValue isArray value).values = value.valuesIn isArray := by
  cases isArray <;> rfl

end Found

namespace Place

def notAllowed (place : Place) (value : Json) : List Fault :=
  match place.field.options.allowed with
  | some allowed =>
    if Rule.isAllowed allowed value then []
    else [.notAllowed place.name place.path value.compact allowed]
  | none => []

def wrongLength (place : Place) (rule : Rule.Length) (limit : Option UInt64) (value : Json) :
    List Fault :=
  match limit with
  | some n =>
    if value.string?.any (rule.fits n.toNat) then []
    else [.ruleBroken place.name place.path rule.key (Json.natural n).compact value.compact rule.message]
  | none => []

/-- The rules that one value of a primitive field breaks. -/
def violations (place : Place) (value : Json) : List Fault :=
  place.notAllowed value ++
    place.wrongLength .max place.field.options.maxLength value ++
      place.wrongLength .exact place.field.options.exactLength value

end Place

namespace Level

/-- A field that is there has to be at least as great as those it names. -/
def tooSmall (level : Level) (name : String) : Field → List Fault
  | .primitive _ traits =>
    match traits.options.atLeast with
    | some references =>
      if Entries.has name level.members &&
          !(Rule.Cross.atLeast.bind (name :: references)).admits level.members then
        [.crossRuleBroken level.path (name :: references) Rule.Cross.atLeast.message]
      else []
    | none => []
  | .object .. => []

/-- The rules between its fields that an object breaks. -/
def crossViolations (level : Level) : List Fault :=
  level.fields.flatMap fun (name, field) => level.tooSmall name field

end Level

namespace Field

mutual

/-- The rules that the value of a field breaks: each value of a primitive field, or each object with all
that is in it. -/
def violations (path : Path) (name : String) (value : Json) : Field → List Fault
  | .primitive type traits =>
    (value.valuesIn traits.isArray).flatMap (Place.violations ⟨name, path, .primitive type traits⟩)
  | .object fields traits =>
    (value.objectsIn traits.isArray (path.child name)).flatMap fun (here, members) =>
      fieldViolations here members fields ++ Level.crossViolations ⟨here, members, fields⟩

/-- A field that is not there breaks no rule. -/
def fieldViolations (path : Path) (members : Members) : List (String × Field) → List Fault
  | [] => []
  | (name, field) :: rest =>
    (members.lookup name).elim [] (fun value => field.violations path name value) ++
      fieldViolations path members rest

end

theorem fieldViolations_eq_flatMap (path : Path) (members : Members) (fields : FieldMap) :
    fieldViolations path members fields = fields.flatMap fun (name, field) =>
      (members.lookup name).elim [] fun value => field.violations path name value := by
  induction fields with
  | nil => rfl
  | cons entry rest ih => rw [fieldViolations, ih]; rfl

end Field

/-- The rules that an object breaks, first in its fields. -/
def Level.violations (level : Level) : List Fault :=
  Field.fieldViolations level.path level.members level.fields ++ level.crossViolations

/-- The rules that a document breaks. -/
def FieldMap.violations (map : FieldMap) (document : Json) : List Fault :=
  document.object?.elim [] fun members => Level.violations ⟨.root, members, map⟩

namespace Place

variable {place : Place} {value : Json}

theorem found_eq_ofValue {found : Found} (read : place.found value = .ok found) :
    found = .ofValue place.field.isArray value := by
  unfold Place.found at read
  unfold Found.ofValue
  split at read
  · next isArray =>
    obtain ⟨items, elements, rfl⟩ := map_eq_ok_iff.mp read
    cases elements_eq_ok elements
    rw [if_pos isArray]
    rfl
  · next single =>
    cases read
    rw [if_neg single]

theorem values_eq_valuesIn {found : Found} (read : place.found value = .ok found) :
    found.values = value.valuesIn place.field.isArray := by
  rw [found_eq_ofValue read, Found.values_ofValue]

/-- Where the value of an object field has the right form, there are faults only in its objects. -/
theorem objectFaults_eq_flatMap (inner : Path → Members → List Fault)
    (form : place.objectFaults (fun _ _ => []) value = []) :
    place.objectFaults inner value =
      (value.objectsIn place.field.isArray (place.path.child place.name)).flatMap
        fun (here, members) => inner here members := by
  unfold objectFaults at form ⊢
  unfold Json.objectsIn
  cases isArray : place.field.isArray with
  | true =>
    simp only [isArray, if_true] at form ⊢
    obtain ⟨items, read, each⟩ := orFault_eq_nil_iff.mp form
    cases elements_eq_ok read
    rw [List.filterMap_eq_flatMap_toList, List.flatMap_assoc]
    refine List.flatMap_congr fun entry member => ?_
    obtain ⟨item, i⟩ := entry
    obtain ⟨members, read, -⟩ := orFault_eq_nil_iff.mp (List.flatMap_eq_nil_iff.mp each _ member)
    cases members_eq_ok read
    simp [Place.members, Json.object?]
  | false =>
    simp only [isArray] at form ⊢
    obtain ⟨members, read, -⟩ := orFault_eq_nil_iff.mp form
    cases members_eq_ok read
    simp [Place.members, Json.object?]

end Place

theorem Rule.Limit.admits_eq (bound : Limit) (value : Json) :
    bound.admits value = value.string?.any (bound.rule.fits bound.limit.toNat) := by
  unfold Limit.admits Length.admits
  cases value.string? <;> rfl

namespace Audit

theorem checkAllowed_eq (place : Place) (value : Json) :
    (place.field.options.allowed.bind fun allowed =>
      Entry.fault? (Rule.checkAllowed place.name place.path allowed value)).toList =
        place.notAllowed value := by
  unfold Place.notAllowed Rule.checkAllowed
  cases place.field.options.allowed with
  | none => rfl
  | some allowed =>
    dsimp only [Option.bind_some]
    split <;> rfl

theorem checkLimit_eq (place : Place) (value : Json) (rule : Rule.Length) (limit : Option UInt64) :
    ((limit.map (Rule.Limit.mk rule)).toList.filterMap fun limit =>
      Entry.fault? (limit.check place.name place.path value)) =
        place.wrongLength rule limit value := by
  unfold Place.wrongLength Rule.Limit.check
  cases limit with
  | none => rfl
  | some n =>
    simp only [Option.map_some, Option.toList_some, List.filterMap_cons, List.filterMap_nil,
      Rule.Limit.admits_eq]
    cases value.string?.any (rule.fits n.toNat) <;> rfl

/-- A value of the right type has nothing wrong but the rules that it breaks. -/
theorem plain_value_eq {name : String} {path : Path} {type : Primitive} {traits : Traits}
    {value : Json} (typed : type.holds value = true) :
    plain.value ⟨name, path, .primitive type traits⟩ value =
      Place.violations ⟨name, path, .primitive type traits⟩ value := by
  let place : Place := ⟨name, path, .primitive type traits⟩
  have allowed := checkAllowed_eq place value
  have longest := checkLimit_eq place value .max traits.options.maxLength
  have exact := checkLimit_eq place value .exact traits.options.exactLength
  calc plain.value place value
    _ = (traits.options.allowed.bind fun allowed =>
          Entry.fault? (Rule.checkAllowed name path allowed value)).toList ++
        (Rule.limits traits.options).filterMap fun limit =>
          Entry.fault? (limit.check name path value) := by
      simp only [plain, Entry.primitiveFaults, typed, if_true, ObjectSchema.primitiveTraits, place]
    _ = place.notAllowed value ++ (place.wrongLength .max traits.options.maxLength value ++
          place.wrongLength .exact traits.options.exactLength value) := by
      rw [Rule.limits, List.filterMap_append]
      exact congrArg₂ (· ++ ·) allowed (congrArg₂ (· ++ ·) longest exact)
    _ = place.violations value := (List.append_assoc ..).symm

/-- The values of a primitive field that has the right form. -/
theorem checked_primitive_eq {name : String} {path : Path} {type : Primitive} {traits : Traits}
    {value : Json} (form : shape.field path name value (.primitive type traits) = []) :
    checked.field path name value (.primitive type traits) =
      Field.violations path name value (.primitive type traits) := by
  rw [Audit.field] at form ⊢
  obtain ⟨found, read, typed⟩ := Place.valueFaults_eq_nil_iff.mp form
  rw [Place.valueFaults, read, orFault_ok, Field.violations, Place.values_eq_valuesIn read]
  refine List.flatMap_congr fun item member => plain_value_eq ?_
  rw [← Place.values_eq_valuesIn read] at member
  simpa [shape] using typed item member

theorem tooSmall_eq (level : Level) (name : String) (field : Field) :
    (if Entries.has name level.members then level.broken name field else []) =
      level.tooSmall name field := by
  unfold Level.broken Level.tooSmall
  cases field with
  | object => simp [Field.checks]
  | primitive type traits =>
    rw [Field.checks, Rule.crossChecks]
    dsimp only
    cases traits.options.atLeast with
    | none => simp
    | some references =>
      cases Entries.has name level.members with
      | false => rfl
      | true =>
        cases admitted : (Rule.Cross.atLeast.bind (name :: references)).admits level.members with
        | true => simp [Rule.CrossCheck.check, admitted, Entry.fault?]
        | false =>
          simp [Rule.CrossCheck.check, admitted, Entry.fault?]
          rfl

/-- Nothing else is wrong with an object of the right form. -/
theorem checked_level_eq (fields : FieldMap) {path : Path} {members : Members}
    (form : shape.level ⟨path, members, fields⟩ = []) :
    checked.level ⟨path, members, fields⟩ = Level.violations ⟨path, members, fields⟩ := by
  induction fields using FieldMap.induction generalizing path members with
  | step fields ih =>
    have entries : checked.fields path members fields =
        Field.fieldViolations path members fields := by
      rw [fields_eq_flatMap, Field.fieldViolations_eq_flatMap]
      refine List.flatMap_congr fun entry member => ?_
      obtain ⟨name, field⟩ := entry
      have entry := (level_eq_nil_iff.mp form).2 name field member
      unfold Audit.entry at entry ⊢
      cases found : members.lookup name with
      | none =>
        simp only [found] at entry ⊢
        exact entry
      | some value =>
        simp only [found] at entry ⊢
        cases field with
        | primitive type traits => exact checked_primitive_eq entry
        | object inner traits =>
          rw [Audit.field] at entry ⊢
          obtain ⟨form, below⟩ := Place.objectFaults_eq_nil_iff.mp entry
          rw [Option.elim_some, Field.violations]
          have objects := Place.objectFaults_eq_flatMap
            (fun here members => Level.violations ⟨here, members, inner⟩) form
          refine Eq.trans (Place.objectFaults_congr fun here members holds => ?_) objects
          exact ih name inner traits member (below here members holds)
    have own : checked.object ⟨path, members, fields⟩ =
        Level.crossViolations ⟨path, members, fields⟩ :=
      List.flatMap_congr fun entry _ => tooSmall_eq _ entry.1 entry.2
    rw [level_eq_append rfl, entries, own]
    rfl

theorem checked_document_eq {map : FieldMap} {document : Json}
    (form : shape.document map document = []) :
    checked.document map document = map.violations document := by
  obtain ⟨members, rfl, none⟩ := document_eq_nil_iff.mp form
  exact checked_level_eq map none

theorem shape_of_guarded {limit : Nat} {map : FieldMap} {document : Json}
    (none : (guarded limit).document map document = []) : shape.document map document = [] := by
  obtain ⟨members, rfl, none⟩ := document_eq_nil_iff.mp none
  exact level_eq_nil_mono (guarded limit) shape (fun _ _ none => none) none fun _ _ => rfl

end Audit

/-- Validation ends with the first rule that is broken in what was extracted, and with what was
extracted if no rule is. The rules between the fields of an object, which are gathered on the way through
its fields, come after all that is broken in these fields, in the order in which they are declared: none
is lost at the end of an inner object, and none is seen twice. -/
theorem extractValid_eq_first_violation {settings : Settings} {map : FieldMap}
    {document extracted : Json} (distinct : map.Throughout Entries.Distinct)
    (complete : extract settings map document = .ok extracted) :
    extractValid settings map document =
      match map.violations extracted with
      | [] => .ok extracted
      | first :: _ => .error first := by
  rw [extract, extractKept_eq_guarded, failFast_eq_ok_iff, Extraction.keeps_none] at complete
  obtain ⟨none, rfl⟩ := complete
  have again : (Audit.guarded settings.maxDepth).document map (map.pick (fun _ => true) document) = [] :=
    (Audit.document_pick distinct (fun _ _ _ _ _ _ _ => rfl) document).trans none
  rw [extractValid_eq_guarded document fun _ => again, none, List.nil_append,
    Audit.checked_document_eq (Audit.shape_of_guarded again)]
  rfl

/-- A rule between fields is broken in the document itself and in the second of its rows, but what is
wrong with the first of the rows comes before it. The map is deeper than the guard allows, where the
document has nothing. -/
theorem extractValid_eq_first_violation_of_rows :
    let settings : Settings := ⟨2, .reject, "_ref_"⟩
    let number : Field := .primitive .number ⟨false, false, .empty⟩
    let least (name : String) : Field :=
      .primitive .number ⟨false, false, { Options.empty with atLeast := some [name] }⟩
    let code : Field := .primitive .string
      ⟨true, true, { Options.empty with allowed := some ["x", "yy"], maxLength := some 1 }⟩
    let map : FieldMap := [("a", least "b"), ("b", number),
      ("rows", .object [("lo", least "hi"), ("hi", number), ("code", code)] ⟨true, true, .empty⟩),
      ("deep", .object [("deeper", .object [] ⟨true, false, .empty⟩)] ⟨false, false, .empty⟩)]
    let rows : Json := .array [.object [("code", .strings ["x", "yy", "zz"])],
      .object [("lo", .natural 1), ("code", .array [])]]
    let document : Json := .object [("rows", rows), ("other", .null), ("a", .natural 1)]
    let extracted : Json := .object [("a", .natural 1), ("rows", rows)]
    let row (i : Nat) : Path := (Path.root.child "rows").element i
    let tooLong (text : String) : Fault := .ruleBroken "code" (row 0) "maxLength" "1" text
      "This string field is too long"
    let tooSmall (path : Path) (names : List String) : Fault :=
      .crossRuleBroken path names "The fields need to be in descending order or equal"
    map.Throughout Entries.Distinct ∧ extract settings map document = .ok extracted ∧
      map.violations extracted = [tooLong "\"yy\"",
        .notAllowed "code" (row 0) "\"zz\"" ["x", "yy"], tooLong "\"zz\"",
        tooSmall (row 1) ["lo", "hi"], tooSmall .root ["a", "b"]] ∧
      extractValid settings map document = .error (tooLong "\"yy\"") := by
  intro settings number least code map rows document extracted row tooLong tooSmall
  have distinct : map.Throughout Entries.Distinct := by
    refine FieldMap.throughout_iff.mpr ⟨by simp [Entries.Distinct, map], fun _ _ _ member => ?_⟩
    simp only [map, least, number, List.mem_cons, Prod.mk.injEq, reduceCtorEq, and_false,
      Field.object.injEq, List.not_mem_nil, or_false, false_or] at member
    rcases member with ⟨-, rfl, -⟩ | ⟨-, rfl, -⟩
    · refine FieldMap.throughout_iff.mpr ⟨by simp [Entries.Distinct], fun _ _ _ member => ?_⟩
      simp [code] at member
    · refine FieldMap.throughout_iff.mpr ⟨by simp [Entries.Distinct], fun _ _ _ member => ?_⟩
      simp only [List.mem_singleton, Prod.mk.injEq, Field.object.injEq] at member
      obtain ⟨-, rfl, -⟩ := member
      exact FieldMap.throughout_distinct_empty
  have complete : extract settings map document = .ok extracted := rfl
  have violations : map.violations extracted = [tooLong "\"yy\"",
      .notAllowed "code" (row 0) "\"zz\"" ["x", "yy"], tooLong "\"zz\"",
      tooSmall (row 1) ["lo", "hi"], tooSmall .root ["a", "b"]] := rfl
  have first := extractValid_eq_first_violation distinct complete
  rw [violations] at first
  exact ⟨distinct, complete, violations, first⟩

end FieldSchema
