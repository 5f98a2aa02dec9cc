import FieldSchema.Proofs.Cross
import FieldSchema.Proofs.Extraction
import FieldSchema.Proofs.Normalization
import Mathlib.Data.List.Forall2

/-! Documents that agree in all that a field map declares of them. What is not declared may differ,
in each object that is described; where a value does not have the form that is declared, both have
the same one. An audit finds the same in both, unless it looks at more than the declared fields of
an object. -/
namespace FieldSchema

namespace Json

variable {R : Members → Members → Prop}

/-- The same value, or two objects that are related. -/
inductive Alike (R : Members → Members → Prop) : Json → Json → Prop where
  | same {value : Json} : Alike R value value
  | objects {ms ns : Members} : R ms ns → Alike R (.object ms) (.object ns)

/-- The same for the elements of an array, where a field is one. -/
inductive Aligned (R : Members → Members → Prop) : Bool → Json → Json → Prop where
  | same {isArray : Bool} {value : Json} : Aligned R isArray value value
  | single {a b : Json} : Alike R a b → Aligned R false a b
  | elements {xs ys : List Json} : List.Forall₂ (Alike R) xs ys →
    Aligned R true (.array xs) (.array ys)

theorem Alike.mapMembers {f : Members → Members} (related : ∀ ms, R (f ms) ms) (value : Json) :
    Alike R (value.mapMembers f) value := by
  cases value with
  | object members => exact .objects (related members)
  | null | bool | number | string | array => exact .same

theorem Aligned.mapObjects {f : Members → Members} (related : ∀ ms, R (f ms) ms) (isArray : Bool)
    (value : Json) : Aligned R isArray (value.mapObjects isArray f) value := by
  cases isArray with
  | false => exact .single (Alike.mapMembers related value)
  | true =>
    cases value with
    | array items =>
      refine .elements (List.forall₂_map_left_iff.mpr (List.forall₂_same.mpr fun item _ => ?_))
      exact Alike.mapMembers related item
    | null | bool | number | string | object => exact .same

end Json

namespace Field

mutual

def Agree (a b : Json) : Field → Prop
  | .primitive .. => a = b
  | .object fields traits =>
    Json.Aligned (fun ms ns => FieldsAgree ms ns fields) traits.isArray a b

/-- Both objects have the same of the fields, and they agree in their values. -/
def FieldsAgree (ms ns : Members) : List (String × Field) → Prop
  | [] => True
  | (name, field) :: rest =>
    Option.Rel (fun a b => Agree a b field) (ms.lookup name) (ns.lookup name) ∧
      FieldsAgree ms ns rest

end

theorem fieldsAgree_iff {ms ns : Members} {fields : FieldMap} :
    FieldsAgree ms ns fields ↔ ∀ name field, (name, field) ∈ fields →
      Option.Rel (fun a b => field.Agree a b) (ms.lookup name) (ns.lookup name) := by
  induction fields with
  | nil => simp [FieldsAgree]
  | cons entry rest ih =>
    rw [FieldsAgree, ih]
    constructor
    · rintro ⟨first, others⟩ name field member
      rcases List.mem_cons.mp member with rfl | member
      · exact first
      · exact others name field member
    · intro all
      exact ⟨all _ _ (List.mem_cons_self ..), fun name field member =>
        all name field (List.mem_cons_of_mem _ member)⟩

/-- Objects that agree have the same value for a primitive field. -/
theorem FieldsAgree.lookup_primitive {ms ns : Members} {fields : FieldMap} {name : String}
    {type : Primitive} {traits : Traits} (agree : FieldsAgree ms ns fields)
    (member : (name, .primitive type traits) ∈ fields) : ms.lookup name = ns.lookup name := by
  have related := fieldsAgree_iff.mp agree _ _ member
  generalize ms.lookup name = a at related
  generalize ns.lookup name = b at related
  cases related with
  | some same => exact congrArg some same
  | none => rfl

theorem lookup_pickFields_none {keep : Field → Bool} {members : Members} {fields : FieldMap}
    {name : String} (absent : name ∉ Entries.names fields) :
    (pickFields keep members fields).lookup name = none := by
  rw [List.lookup_eq_none_iff, pickFields_eq_flatMap]
  intro picked member
  obtain ⟨⟨other, field⟩, declared, member⟩ := List.mem_flatMap.mp member
  have different : name ≠ other := by
    rintro rfl
    exact absent (List.mem_map_of_mem declared)
  cases found : members.lookup other with
  | none => simp [found] at member
  | some value =>
    simp only [found, Option.elim_some] at member
    split at member
    · cases List.mem_singleton.mp member
      simpa using different
    · cases member

/-- A field that is picked is found under its name, if no other field has that name. -/
theorem lookup_pickFields {keep : Field → Bool} {members : Members} {fields : FieldMap}
    (distinct : Entries.Distinct fields) {name : String} {field : Field}
    (member : (name, field) ∈ fields) : (pickFields keep members fields).lookup name =
      if keep field then (members.lookup name).map (field.pick keep) else none := by
  induction fields with
  | nil => cases member
  | cons entry rest ih =>
    obtain ⟨other, first⟩ := entry
    obtain ⟨absent, distinct⟩ := List.nodup_cons.mp distinct
    rw [pickFields, List.lookup_append]
    rcases List.mem_cons.mp member with same | later
    · cases same
      rw [lookup_pickFields_none absent, Option.or_none]
      cases members.lookup name with
      | none => simp
      | some value => by_cases kept : keep field <;> simp [kept]
    · have different : name ≠ other := by
        rintro rfl
        exact absent (List.mem_map.mpr ⟨_, later, rfl⟩)
      rw [ih distinct later]
      cases members.lookup other with
      | none => rfl
      | some value =>
        have unlike : (name == other) = false := beq_eq_false_iff_ne.mpr different
        by_cases kept : keep first <;> simp [kept, List.lookup_cons, unlike]

/-- What is picked of an object agrees with it, if no field is left out. -/
theorem pickFields_agree (fields : FieldMap) (distinct : fields.Throughout Entries.Distinct)
    (members : Members) :
    FieldsAgree (pickFields (fun _ => true) members fields) members fields := by
  induction fields using FieldMap.induction generalizing members with
  | step fields ih =>
    obtain ⟨here, below⟩ := FieldMap.throughout_iff.mp distinct
    refine fieldsAgree_iff.mpr fun name field member => ?_
    rw [lookup_pickFields here member, if_pos rfl]
    cases members.lookup name with
    | none => exact .none
    | some value =>
      refine .some ?_
      cases field with
      | primitive type traits => simp only [Agree, pick]
      | object inner traits =>
        simp only [Agree, pick]
        exact .mapObjects (ih name inner traits member (below name inner traits member)) _ _

end Field

namespace Place

variable {place : Place} {R : Members → Members → Prop} {inner : Path → Members → List Fault}

theorem members_alike {a b : Json} (alike : Json.Alike R a b)
    (same : ∀ path ms ns, R ms ns → inner path ms = inner path ns) (path : Path) :
    orFault (place.members a) (inner path) = orFault (place.members b) (inner path) := by
  cases alike with
  | same => rfl
  | objects related => exact same path _ _ related

theorem elements_alike {xs ys : List Json} (alike : List.Forall₂ (Json.Alike R) xs ys)
    (same : ∀ path ms ns, R ms ns → inner path ms = inner path ns) (below : Path) (start : Nat) :
    ((xs.zipIdx start).flatMap fun (item, i) =>
        orFault (place.members item) (inner (below.element i))) =
      (ys.zipIdx start).flatMap fun (item, i) =>
        orFault (place.members item) (inner (below.element i)) := by
  induction alike generalizing start with
  | nil => rfl
  | cons first _ ih =>
    simp only [List.zipIdx_cons, List.flatMap_cons]
    rw [members_alike first same, ih]

theorem objectFaults_aligned {a b : Json} (aligned : Json.Aligned R place.field.isArray a b)
    (same : ∀ path ms ns, R ms ns → inner path ms = inner path ns) :
    place.objectFaults inner a = place.objectFaults inner b := by
  unfold objectFaults
  generalize place.field.isArray = isArray at aligned
  cases aligned with
  | same => rfl
  | single alike => exact members_alike alike same _
  | elements alike => exact elements_alike alike same _ 0

end Place

namespace Audit

/-- Whether an audit looks at nothing but the declared fields of an object. -/
def Blind (audit : Audit) (fields : FieldMap) : Prop :=
  ∀ path ms ns, Field.FieldsAgree ms ns fields →
    audit.object ⟨path, ms, fields⟩ = audit.object ⟨path, ns, fields⟩

theorem level_congr {audit : Audit} (fields : FieldMap) (blind : fields.Throughout audit.Blind)
    {path : Path} {ms ns : Members} (agree : Field.FieldsAgree ms ns fields) :
    audit.level ⟨path, ms, fields⟩ = audit.level ⟨path, ns, fields⟩ := by
  induction fields using FieldMap.induction generalizing path ms ns with
  | step fields ih =>
    obtain ⟨here, below⟩ := FieldMap.throughout_iff.mp blind
    have entries : audit.fields path ms fields = audit.fields path ns fields := by
      rw [fields_eq_flatMap, fields_eq_flatMap]
      refine List.flatMap_congr fun ⟨name, field⟩ member => ?_
      have related := Field.fieldsAgree_iff.mp agree name field member
      dsimp only [Audit.entry]
      generalize ms.lookup name = a at related
      generalize ns.lookup name = b at related
      cases related with
      | none => rfl
      | some agree =>
        cases field with
        | primitive type traits => cases agree; rfl
        | object inner traits =>
          simp only [Field.Agree] at agree
          dsimp only [Audit.field]
          exact Place.objectFaults_aligned agree fun path ms ns agree =>
            ih name inner traits member (below name inner traits member) agree
    rw [Audit.level, Audit.level, entries, here path ms ns agree]

/-- An audit finds the same in a document and in what is picked of it. -/
theorem document_pick {audit : Audit} {map : FieldMap} (distinct : map.Throughout Entries.Distinct)
    (blind : map.Throughout audit.Blind) (document : Json) :
    audit.document map (map.pick (fun _ => true) document) =
      audit.document map document := by
  cases document with
  | object members => exact level_congr map blind (Field.pickFields_agree map distinct members)
  | null | bool | number | string | array => rfl

end Audit

/-! A rule between fields names numbers of the same object, if its references are resolved. -/

theorem Field.mem_checks_iff {name : String} {field : Field} {check : Rule.CrossCheck} :
    check ∈ field.checks name ↔ ∃ type traits references, field = .primitive type traits ∧
      traits.options.atLeast = some references ∧
        check = Rule.Cross.atLeast.bind (name :: references) := by
  cases field with
  | object => simp [checks]
  | primitive type traits =>
    cases declared : traits.options.atLeast <;> simp [checks, Rule.crossChecks, declared]

theorem FieldMap.primitive_of_reference {fields : FieldMap} {name : String}
    (number : fields.badReference? name = none) :
    ∃ type traits, (name, Field.primitive type traits) ∈ fields := by
  unfold badReference? get? at number
  cases found : List.lookup name fields with
  | none => simp [found] at number
  | some field =>
    obtain ⟨before, after, rfl, -⟩ := List.lookup_eq_some_iff.mp found
    cases field with
    | primitive type traits => exact ⟨type, traits, by simp⟩
    | object inner traits => simp [found, Field.isNumber] at number

theorem FieldMap.Resolved.primitive_of_check {fields : FieldMap} (resolved : fields.Resolved)
    {name other : String} {field : Field} {check : Rule.CrossCheck}
    (member : (name, field) ∈ fields) (declared : check ∈ field.checks name)
    (listed : other ∈ check.fields) :
    ∃ type traits, (other, Field.primitive type traits) ∈ fields := by
  obtain ⟨type, traits, references, rfl, some, rfl⟩ := Field.mem_checks_iff.mp declared
  rcases List.mem_cons.mp listed with rfl | listed
  · exact ⟨type, traits, member⟩
  · have number := resolved _ _ member other (by
      simpa [Field.options, Field.traits, some] using listed)
    exact primitive_of_reference number

theorem Level.broken_congr {path : Path} {ms ns : Members} {fields : FieldMap} {name : String}
    {field : Field} (resolved : fields.Resolved) (agree : Field.FieldsAgree ms ns fields)
    (member : (name, field) ∈ fields) :
    Level.broken ⟨path, ms, fields⟩ name field = Level.broken ⟨path, ns, fields⟩ name field := by
  refine List.filterMap_congr fun check declared => congrArg Entry.fault? ?_
  refine Rule.CrossCheck.check_congr (fun other listed => ?_) path
  obtain ⟨type, traits, member⟩ := resolved.primitive_of_check member declared listed
  exact agree.lookup_primitive member

theorem Audit.checked_blind {fields : FieldMap} (resolved : fields.Resolved) :
    checked.Blind fields := by
  intro path ms ns agree
  refine List.flatMap_congr fun ⟨name, field⟩ member => ?_
  have related := Field.fieldsAgree_iff.mp agree name field member
  have same : Entries.has name ms = Entries.has name ns := by
    unfold Entries.has
    generalize ms.lookup name = a at related
    generalize ns.lookup name = b at related
    cases related <;> rfl
  dsimp only
  rw [same, Level.broken_congr resolved agree member]

/-- The second pass may as well look at the document itself, if references are resolved. -/
theorem extractValid_eq_of_resolved {settings : Settings} {map : FieldMap}
    (fits : map.Fits settings.maxDepth 0) (distinct : map.Throughout Entries.Distinct)
    (resolved : map.Throughout FieldMap.Resolved) (document : Json) :
    extractValid settings map document = failFast
      (Audit.shape.document map document ++ Audit.checked.document map document)
      (map.pick (fun _ => true) document) := by
  have form := @Audit.document_pick .shape map distinct (fun _ _ _ _ _ _ _ => rfl) document
  have rules := Audit.document_pick distinct
    (fun path inner nested => Audit.checked_blind (resolved path inner nested)) document
  rw [extractValid_eq fits document fun none => form.trans none, rules]

end FieldSchema
