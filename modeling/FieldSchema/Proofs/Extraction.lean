import FieldSchema.Extraction
import FieldSchema.Proofs.Reporting
import FieldSchema.Proofs.Walk
import Mathlib.Data.List.Basic

/-! Extraction in closed form. The first pass ends with the first fault in the form of the document
and gives its declared fields; the second goes over what was extracted and ends with the first rule
that is broken, where the rules between the fields of an object come after all that is in it. -/
namespace FieldSchema

/-- The rules that a field declares between itself and others. -/
def Field.checks (name : String) : Field → List Rule.CrossCheck
  | .primitive _ traits => Rule.crossChecks name traits.options
  | .object .. => []

/-- The rules of a field that an object breaks. -/
def Level.broken (level : Level) (name : String) (field : Field) : List Fault :=
  (field.checks name).filterMap fun check => Entry.fault? (check.check level.members level.path)

/-- The rules of a field that an object breaks are those that do not admit it. -/
theorem Level.mem_broken_iff {level : Level} {name : String} {field : Field} {fault : Fault} :
    fault ∈ level.broken name field ↔ ∃ check ∈ field.checks name,
      check.admits level.members = false ∧ fault = check.fault level.path := by
  unfold Level.broken
  rw [List.mem_filterMap]
  refine exists_congr fun check => and_congr_right fun _ => ?_
  unfold Rule.CrossCheck.check
  cases admitted : check.admits level.members <;> simp [Entry.fault?, @eq_comm _ fault]

/-- A value of the wrong type has nothing else wrong; one of the right type is not allowed, or not
within a limit. -/
theorem Entry.mem_primitiveFaults_iff {name : String} {path : Path} {type : Primitive}
    {traits : EntryTraits} {value : Json} {fault : Fault} :
    fault ∈ primitiveFaults name path type traits value ↔
      type.holds value = false ∧ fault = .typeMismatch name path value.compact type.name ∨
      type.holds value = true ∧
        ((∃ allowed, traits.allowed = some allowed ∧ Rule.isAllowed allowed value = false ∧
          fault = .notAllowed name path value.compact allowed) ∨
        ∃ limit ∈ traits.limits, limit.admits value = false ∧
          fault = .ruleBroken name path limit.rule.key limit.limitValue.compact value.compact
            limit.rule.message) := by
  unfold primitiveFaults
  cases typed : type.holds value with
  | false => simp
  | true =>
    have allowed : (fault ∈ (traits.allowed.bind fun names =>
        fault? (Rule.checkAllowed name path names value)).toList) ↔
          ∃ allowed, traits.allowed = some allowed ∧ Rule.isAllowed allowed value = false ∧
            fault = .notAllowed name path value.compact allowed := by
      rw [Option.mem_toList, Option.bind_eq_some_iff]
      refine exists_congr fun names => and_congr_right fun _ => ?_
      unfold Rule.checkAllowed
      cases Rule.isAllowed names value <;> simp [fault?, @eq_comm _ fault]
    have limits : (fault ∈ traits.limits.filterMap fun limit =>
        fault? (limit.check name path value)) ↔
          ∃ limit ∈ traits.limits, limit.admits value = false ∧
            fault = .ruleBroken name path limit.rule.key limit.limitValue.compact value.compact
              limit.rule.message := by
      rw [List.mem_filterMap]
      refine exists_congr fun limit => and_congr_right fun _ => ?_
      unfold Rule.Limit.check
      cases limit.admits value <;> simp [fault?, @eq_comm _ fault]
    rw [if_pos rfl, List.mem_append, allowed, limits]
    simp

namespace Audit

/-- The types of values. -/
def shape : Audit where
  value place value :=
    match place.field with
    | .primitive type _ => if type.holds value then [] else [place.mismatch value type.name]
    | .object .. => []
  object _ := []
  hides := false

/-- The same, but for objects that are too deep: nothing is looked for in them. -/
def guarded (limit : Nat) : Audit where
  value := shape.value
  object level := if limit ≤ level.path.depth then [.tooDeep level.path limit] else []
  hides := true

/-- The types of values, and the rules for single values. -/
def plain : Audit where
  value place value :=
    match place.field with
    | .primitive type traits =>
      Entry.primitiveFaults place.name place.path type (ObjectSchema.primitiveTraits traits) value
    | .object .. => []
  object _ := []
  hides := false

/-- The rules between fields as well, if the field that declares them is there. -/
def checked : Audit where
  value := plain.value
  object level := level.fields.flatMap fun (name, field) =>
    if Entries.has name level.members then level.broken name field else []
  hides := false

end Audit

/-- An object that is looked into is not too deep. -/
theorem Audit.shallow_of_guarded {limit : Nat} {level : Level}
    (none : (guarded limit).level level = []) : level.path.depth < limit := by
  have passed := (level_eq_nil_iff.mp none).1
  dsimp only [guarded] at passed
  split at passed
  · cases passed
  · omega

namespace Json

def mapMembers (f : Members → Members) : Json → Json
  | .object members => .object (f members)
  | value => value

/-- Applies `f` to an object, or to each object in an array. -/
def mapObjects (isArray : Bool) (f : Members → Members) (value : Json) : Json :=
  if isArray then
    match value with
    | .array items => .array (items.map (mapMembers f))
    | value => value
  else mapMembers f value

theorem mapMembers_mapMembers (f g : Members → Members) (value : Json) :
    (value.mapMembers f).mapMembers g = value.mapMembers fun members => g (f members) := by
  cases value <;> rfl

theorem mapObjects_mapObjects (f g : Members → Members) (isArray : Bool) (value : Json) :
    (value.mapObjects isArray f).mapObjects isArray g =
      value.mapObjects isArray fun members => g (f members) := by
  cases isArray with
  | false => exact mapMembers_mapMembers f g value
  | true =>
    cases value with
    | array items =>
      refine congrArg Json.array ?_
      rw [List.map_map]
      exact List.map_congr_left fun item _ => mapMembers_mapMembers f g item
    | null | bool | number | string | object => rfl

end Json

namespace Field

mutual

/-- The declared part of the value of a field. -/
def pick (keep : Field → Bool) (value : Json) : Field → Json
  | .primitive .. => value
  | .object fields traits =>
    value.mapObjects traits.isArray fun members => pickFields keep members fields

/-- The declared fields that are there and kept, in the order of their declaration. -/
def pickFields (keep : Field → Bool) (members : Members) : List (String × Field) → Members
  | [] => []
  | (name, field) :: rest =>
    (members.lookup name).elim [] (fun value =>
      if keep field then [(name, pick keep value field)] else []) ++ pickFields keep members rest

end

theorem pickFields_eq_flatMap (keep : Field → Bool) (members : Members) (fields : FieldMap) :
    pickFields keep members fields = fields.flatMap fun entry =>
      (members.lookup entry.1).elim [] fun value =>
        if keep entry.2 then [(entry.1, entry.2.pick keep value)] else [] := by
  induction fields with
  | nil => rfl
  | cons entry rest ih => rw [pickFields, ih]; rfl

end Field

/-- The declared part of a document. -/
def FieldMap.pick (keep : Field → Bool) (map : FieldMap) (document : Json) : Json :=
  document.mapMembers fun members => Field.pickFields keep members map

namespace Extraction

variable {limit : Nat}

theorem found_toValue {place : Place} {value : Json} {found : Found}
    (read : place.found value = .ok found) : found.toValue = value := by
  unfold Place.found at read
  split at read
  · obtain ⟨items, elements, rfl⟩ := map_eq_ok_iff.mp read
    exact (Place.elements_eq_ok elements).symm
  · cases read; rfl

theorem extractor_onPrimitive (filter : Option Filter) {place : Place} {type : Primitive}
    {traits : Traits} (isPrimitive : place.field = .primitive type traits) (out : Members)
    (found : Found) :
    (extractor filter).onPrimitive place out type (some found) =
      failFast (found.values.flatMap (Audit.shape.value place))
        (if keeps filter place.field then out ++ [(place.name, found.toValue)] else out) := by
  have types : checkTypes place type found.values =
      failFast (found.values.flatMap (Audit.shape.value place)) () := by
    refine forM_eq_failFast _ fun value _ => ?_
    simp only [Audit.shape, isPrimitive]
    split <;> rfl
  simp only [extractor, types]
  exact failFast_bind_ok _ _ _

/-- Where the value of an object field has the right form, what is gathered of it is its part. -/
theorem childrenValue_gathered {place : Place} {value : Json} (f : Members → Members)
    (form : place.objectFaults (fun _ _ => []) value = []) :
    childrenValue (Visitor.gathered place.field.isArray f value) =
      value.mapObjects place.field.isArray f := by
  unfold Place.objectFaults at form
  unfold Visitor.gathered Json.mapObjects
  cases isArray : place.field.isArray with
  | true =>
    simp only [isArray, if_true] at form ⊢
    obtain ⟨items, read, each⟩ := orFault_eq_nil_iff.mp form
    cases Place.elements_eq_ok read
    simp only [childrenValue, List.map_map, Json.array?, Option.getD_some, Json.array.injEq]
    refine List.map_congr_left fun item member => ?_
    obtain ⟨i, found⟩ := List.mem_iff_getElem?.mp member
    have entry : (item, i) ∈ items.zipIdx := List.mem_zipIdx_iff_getElem?.mpr found
    obtain ⟨members, read, -⟩ := orFault_eq_nil_iff.mp (List.flatMap_eq_nil_iff.mp each _ entry)
    cases Place.members_eq_ok read
    rfl
  | false =>
    simp only [isArray] at form ⊢
    obtain ⟨members, read, -⟩ := orFault_eq_nil_iff.mp form
    cases Place.members_eq_ok read
    rfl

/-- The guard comes before all that is in an object. -/
theorem level_eq_guarded {Out Kind : Type} {visitor : Visitor (Except Fault) Out Kind}
    {body : Out → Except Fault Out} {out result : Out} (level : Level)
    (walks : body visitor.empty =
      failFast ((Audit.guarded limit).fields level.path level.members level.fields) out)
    (ends : visitor.finish level.path out (some level.members) = .ok result) :
    visitor.level limit level.path (some level.members) body =
      failFast ((Audit.guarded limit).level level) result := by
  by_cases shallow : level.path.depth < limit
  · have passed : (Audit.guarded limit).object level = [] := if_neg (Nat.not_le.mpr shallow)
    have faultless : visitor.finish level.path out (some level.members) = failFast [] result := ends
    rw [Visitor.level_eq_failFast shallow walks faultless, List.append_nil, Audit.level, passed,
      Audit.close_nil]
  · have deep : limit ≤ level.path.depth := Nat.not_lt.mp shallow
    have stopped : (Audit.guarded limit).level level = [.tooDeep level.path limit] := by
      simp [Audit.level, Audit.close, Audit.guarded, deep]
    rw [stopped, Visitor.level, if_pos deep]
    rfl

/-- The first pass over an object. -/
theorem walkFields_extractor (filter : Option Filter) (fields : FieldMap) (path : Path)
    (members out : Members) :
    (extractor filter).walkFields limit path (some members) out fields =
      failFast ((Audit.guarded limit).fields path members fields)
        (out ++ Field.pickFields (keeps filter) members fields) := by
  induction fields using FieldMap.induction generalizing path members out with
  | step fields ih =>
    rw [Field.pickFields_eq_flatMap]
    refine Visitor.walkFields_append (fun name field value =>
      if keeps filter field then [(name, field.pick (keeps filter) value)] else []) fields out
      fun name field value out member found => ?_
    cases field with
    | primitive type traits =>
      rw [Audit.field]
      refine Visitor.walkField_primitive type rfl fun found read => ?_
      rw [extractor_onPrimitive filter rfl, found_toValue read, Field.pick]
      split <;> simp [Audit.guarded]
    | object inner traits =>
      rw [Audit.field]
      rw [Visitor.walkField_object
        (fun here members => (Audit.guarded limit).level ⟨here, members, inner⟩)
        (Field.pickFields (keeps filter) · inner) ?_ fun children => rfl]
      · refine failFast_congr fun none => ?_
        have form := (Place.objectFaults_eq_nil_iff.mp none).1
        have whole := childrenValue_gathered (Field.pickFields (keeps filter) · inner) form
        simp only [Field.isArray, Field.traits] at whole
        rw [whole, Field.pick]
        split <;> simp
      · intro here members holds
        exact level_eq_guarded ⟨here, members, inner⟩
          (ih name inner traits member here members []) rfl

/-! The second pass, over a document of the right form. -/

theorem failFast_fault? (result : Except Fault Unit) :
    failFast (Entry.fault? result).toList () = result := by
  cases result <;> rfl

/-- A value of the right type is at fault where it breaks a rule. -/
theorem checkValue_eq {name : String} {path : Path} {type : Primitive} {traits : Traits}
    {value : Json} (typed : type.holds value = true) :
    checkValue ⟨name, path, .primitive type traits⟩ value =
      failFast (Audit.plain.value ⟨name, path, .primitive type traits⟩ value) () := by
  have limits : ((Rule.limits traits.options).forM fun limit => limit.check name path value) =
      failFast ((Rule.limits traits.options).filterMap fun limit =>
        Entry.fault? (limit.check name path value)) () := by
    rw [List.filterMap_eq_flatMap_toList]
    exact forM_eq_failFast _ fun limit _ => (failFast_fault? _).symm
  simp only [checkValue, Audit.plain, Field.options, Field.traits, Entry.primitiveFaults, typed,
    if_true, ObjectSchema.primitiveTraits, limits]
  cases traits.options.allowed with
  | none => rfl
  | some allowed =>
    dsimp only [Option.bind_some]
    conv_lhs => rw [← failFast_fault? (Rule.checkAllowed name path allowed value)]
    exact failFast_bind fun _ => rfl

/-- The rules of the fields that are there. -/
def gatheredChecks (members : Members) (fields : FieldMap) : List Rule.CrossCheck :=
  fields.flatMap fun entry => (members.lookup entry.1).elim [] fun _ => entry.2.checks entry.1

theorem finish_checker (level : Level) :
    checker.finish level.path (gatheredChecks level.members level.fields) (some level.members) =
      failFast (Audit.checked.object level) [] := by
  have broken : (gatheredChecks level.members level.fields).filterMap (fun check =>
      Entry.fault? (check.check level.members level.path)) = Audit.checked.object level := by
    rw [gatheredChecks, List.filterMap_flatMap]
    refine List.flatMap_congr fun ⟨name, field⟩ _ => ?_
    cases found : level.members.lookup name <;> simp [Entries.has, found, Level.broken]
  have run : ((gatheredChecks level.members level.fields).forM fun check =>
      check.check level.members level.path) = failFast (Audit.checked.object level) () := by
    rw [← broken, List.filterMap_eq_flatMap_toList]
    exact forM_eq_failFast _ fun check _ => (failFast_fault? _).symm
  simp only [checker, run]
  exact failFast_bind_ok ..

/-- The rules of the fields that are there are gathered, and run at the end of their object. -/
theorem walkFields_checker (fields : FieldMap) (path : Path) (members : Members)
    (out : List Rule.CrossCheck) (form : (Audit.guarded limit).level ⟨path, members, fields⟩ = []) :
    checker.walkFields limit path (some members) out fields =
      failFast (Audit.checked.fields path members fields)
        (out ++ gatheredChecks members fields) := by
  induction fields using FieldMap.induction generalizing path members out with
  | step fields ih =>
    refine Visitor.walkFields_append (fun name field _ => field.checks name) fields out
      fun name field value out member found => ?_
    have entry := (Audit.level_eq_nil_iff.mp form).2 name field member
    simp only [Audit.entry, found] at entry
    cases field with
    | primitive type traits =>
      rw [Audit.field] at entry ⊢
      obtain ⟨held, read, typed⟩ := Place.valueFaults_eq_nil_iff.mp entry
      refine Visitor.walkField_primitive () rfl fun values again => ?_
      cases read.symm.trans again
      have each : held.values.forM (checkValue ⟨name, path, .primitive type traits⟩) = failFast
          (held.values.flatMap (Audit.plain.value ⟨name, path, .primitive type traits⟩)) () :=
        forM_eq_failFast _ fun item member => checkValue_eq (by
          simpa [Audit.guarded, Audit.shape] using typed item member)
      simp only [checker, each]
      exact failFast_bind_ok ..
    | object inner traits =>
      rw [Audit.field] at entry ⊢
      rw [Visitor.walkField_object (fun here members =>
        Audit.checked.level ⟨here, members, inner⟩) (fun _ => []) ?_ fun children => rfl]
      · simp [Field.checks, Audit.level]
      · intro here members holds
        have level := (Place.objectFaults_eq_nil_iff.mp entry).2 here members holds
        exact Visitor.level_eq_failFast (Audit.shallow_of_guarded level)
          (ih name inner traits member here members [] level)
          (finish_checker ⟨here, members, inner⟩)

end Extraction

section

variable {settings : Settings} {map : FieldMap}

theorem Extraction.keeps_none : Extraction.keeps none = fun _ => true := rfl

/-- The first fault in the form of a document, or object that is too deep, or the declared fields
that are kept. -/
theorem extractKept_eq_guarded (settings : Settings) (map : FieldMap) (document : Json)
    (filter : Option Extraction.Filter) : extractKept settings map document filter =
      failFast ((Audit.guarded settings.maxDepth).document map document)
        (map.pick (Extraction.keeps filter) document) := by
  cases document with
  | object members =>
    have walked : (Extraction.extractor filter).visit settings.maxDepth map
        (some (.object members)) =
          failFast ((Audit.guarded settings.maxDepth).level ⟨.root, members, map⟩)
            (Field.pickFields (Extraction.keeps filter) members map) := by
      rw [Visitor.visit, Visitor.walk]
      exact Extraction.level_eq_guarded ⟨.root, members, map⟩
        (Extraction.walkFields_extractor filter map .root members []) rfl
    rw [extractKept, walked]
    exact failFast_map ..
  | null | bool | number | string | array => rfl

/-- The first fault that ends extraction, then the first rule that what was extracted of it breaks,
or what was extracted. -/
theorem extractValid_eq_guarded (document : Json)
    (form : (Audit.guarded settings.maxDepth).document map document = [] →
      (Audit.guarded settings.maxDepth).document map (map.pick (fun _ => true) document) = []) :
    extractValid settings map document = failFast
      ((Audit.guarded settings.maxDepth).document map document ++ Audit.checked.document map
        (map.pick (fun _ => true) document))
      (map.pick (fun _ => true) document) := by
  rw [extractValid, extract, extractKept_eq_guarded, Extraction.keeps_none]
  refine failFast_bind fun none => ?_
  cases document with
  | object members =>
    have level := form none
    have walked : Extraction.checker.visit settings.maxDepth map (some
        (Json.object (Field.pickFields (fun _ => true) members map))) = failFast
          (Audit.checked.level ⟨.root, Field.pickFields (fun _ => true) members map, map⟩) [] :=
      Visitor.visit_object (Audit.shallow_of_guarded level)
        (Extraction.walkFields_checker map .root _ [] level)
        (Extraction.finish_checker ⟨.root, _, map⟩)
    rw [FieldMap.pick, Json.mapMembers, walked]
    exact failFast_bind_ok ..
  | null | bool | number | string | array => cases none

/-- The guard finds nothing in a map that it lets pass. -/
theorem Audit.guarded_document {limit : Nat} (fits : map.Fits limit 0) (document : Json) :
    (guarded limit).document map document = shape.document map document := by
  cases document with
  | object members =>
    refine level_eq_of_quiet (guarded limit) shape rfl _ fun last reaches => ⟨?_, rfl⟩
    obtain ⟨path, nested, deep⟩ := reaches.nested
    have shallow := fits path _ nested
    refine if_neg (Nat.not_le.mpr ?_)
    rwa [deep]
  | null | bool | number | string | array => rfl

/-- The first fault in the form of a document, or the declared fields that are kept. -/
theorem extractKept_eq (fits : map.Fits settings.maxDepth 0) (document : Json)
    (filter : Option Extraction.Filter) :
    extractKept settings map document filter = failFast (Audit.shape.document map document)
      (map.pick (Extraction.keeps filter) document) := by
  rw [extractKept_eq_guarded, Audit.guarded_document fits]

/-- The first fault in the form of a document, then the first rule that what was extracted of it
breaks, or what was extracted. -/
theorem extractValid_eq (fits : map.Fits settings.maxDepth 0) (document : Json)
    (form : Audit.shape.document map document = [] →
      Audit.shape.document map (map.pick (fun _ => true) document) = []) :
    extractValid settings map document = failFast
      (Audit.shape.document map document ++ Audit.checked.document map
        (map.pick (fun _ => true) document))
      (map.pick (fun _ => true) document) := by
  have guarded := Audit.guarded_document fits
  rw [extractValid_eq_guarded document (by simpa only [guarded] using form), guarded]

end

end FieldSchema
