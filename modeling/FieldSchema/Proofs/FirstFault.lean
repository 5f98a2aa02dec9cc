import FieldSchema.Proofs.Acceptance

/-! Extraction ends with a fault that the object schema reports as well. Where no field declares a
rule between fields, it is the first fault in the form of the document, or the first of all if the
form is right. -/
namespace FieldSchema

/-- No field declares a rule between itself and others. -/
def FieldMap.Unbound (fields : FieldMap) : Prop :=
  ∀ name field, (name, field) ∈ fields → field.options.atLeast = none

namespace FieldMap.Unbound

variable {fields : FieldMap}

theorem resolved (unbound : fields.Unbound) : fields.Resolved := by
  intro name field member
  simp [unbound name field member]

theorem checks_eq_nil (unbound : fields.Unbound) {name : String} {field : Field}
    (member : (name, field) ∈ fields) : field.checks name = [] := by
  refine List.eq_nil_iff_forall_not_mem.mpr fun check declared => ?_
  obtain ⟨type, traits, references, rfl, some, -⟩ := Field.mem_checks_iff.mp declared
  have none := unbound _ _ member
  simp [Field.options, Field.traits, some] at none

theorem broken_eq_nil (unbound : fields.Unbound) {name : String} {field : Field} {path : Path}
    {members : Members} (member : (name, field) ∈ fields) :
    Level.broken ⟨path, members, fields⟩ name field = [] := by
  rw [Level.broken, unbound.checks_eq_nil member, List.filterMap_nil]

end FieldMap.Unbound

namespace Audit

theorem filter_plain_value (place : Place) (value : Json) :
    (plain.value place value).filter Fault.isStructural = shape.value place value := by
  obtain ⟨name, path, field⟩ := place
  cases field with
  | object => rfl
  | primitive type traits =>
    simp only [plain, shape]
    cases typed : type.holds value with
    | true =>
      rw [if_pos rfl, List.filter_eq_nil_iff]
      intro fault member
      rcases Entry.mem_primitiveFaults_iff.mp member with
        ⟨mistyped, -⟩ | ⟨-, ⟨allowed, -, -, rfl⟩ | ⟨limit, -, -, rfl⟩⟩
      · rw [typed] at mistyped
        cases mistyped
      · simp [Fault.isStructural]
      · simp [Fault.isStructural]
    | false =>
      rw [Entry.primitiveFaults, typed]
      rfl

theorem filter_plain (map : FieldMap) (document : Json) :
    (plain.document map document).filter Fault.isStructural = shape.document map document :=
  filter_document rfl rfl (fun _ structural => structural) filter_plain_value (fun _ => rfl) map
    document

variable {map : FieldMap}

theorem checked_eq_plain (unbound : map.Throughout FieldMap.Unbound) (document : Json) :
    checked.document map document = plain.document map document := by
  cases document with
  | object members =>
    refine level_eq_of_quiet .checked .plain rfl _ fun last reaches => ⟨?_, rfl⟩
    obtain ⟨nested, below, -⟩ := reaches.nested
    have unbound := unbound nested _ below
    simp only [checked, List.flatMap_eq_nil_iff]
    rintro ⟨name, field⟩ member
    simp [unbound.broken_eq_nil member]
  | null | bool | number | string | array => rfl

theorem hooked_object_of_unbound {level : Level} (unbound : level.fields.Unbound) :
    hooked.object level = [] :=
  hooked_object_eq_nil_iff.mpr fun _ _ member => unbound.broken_eq_nil member

theorem hooked_eq_plain (unbound : map.Throughout FieldMap.Unbound) (document : Json) :
    hooked.document map document = plain.document map document := by
  cases document with
  | object members =>
    refine level_eq_of_quiet .hooked .plain rfl _ fun last reaches => ⟨?_, rfl⟩
    obtain ⟨nested, below, -⟩ := reaches.nested
    exact hooked_object_of_unbound (unbound nested _ below)
  | null | bool | number | string | array => rfl

end Audit

/-- What extraction ends with, given all the faults that the object schema reports. Insertion has
seen to it that no name occurs twice (`FieldMap.throughout_distinct_insert`). -/
theorem extractValid_first_fault {settings : Settings} {map : FieldMap} {built : ObjectSchema}
    (distinct : map.Throughout Entries.Distinct) (unbound : map.Throughout FieldMap.Unbound)
    (complete : ObjectSchema.ofMap settings map = .ok built) (document : Json) :
    let faults := (built.validate document).faults
    ((∃ extracted, extractValid settings map document = .ok extracted) ↔ faults = []) ∧
    (∀ fault, extractValid settings map document = .error fault ↔
      (faults.find? Fault.isStructural).or faults.head? = some fault) ∧
    (∀ fault, extract settings map document = .error fault ↔
      faults.find? Fault.isStructural = some fault) := by
  obtain ⟨fits, rfl⟩ := ObjectSchema.ofMap_eq_ok_iff.mp complete
  intro faults
  have reported : faults = Audit.plain.document map document := by
    rw [← Audit.hooked_eq_plain unbound, ← ObjectSchema.faults_ofFields]
    exact ObjectSchema.faults_validate _ document
  have form : Audit.shape.document map document = faults.filter Fault.isStructural := by
    rw [reported, Audit.filter_plain]
  have first : extract settings map document = failFast (faults.filter Fault.isStructural)
      (map.pick (fun _ => true) document) := by
    rw [extract, extractKept_eq fits, form]
    rfl
  have both : extractValid settings map document =
      failFast (faults.filter Fault.isStructural ++ faults)
        (map.pick (fun _ => true) document) := by
    rw [extractValid_eq_of_resolved fits distinct fun path inner nested =>
      (unbound path inner nested).resolved, form, Audit.checked_eq_plain unbound, ← reported]
  refine ⟨?_, fun fault => ?_, fun fault => ?_⟩
  · rw [both]
    constructor
    · rintro ⟨extracted, accepted⟩
      exact (List.append_eq_nil_iff.mp (failFast_eq_ok_iff.mp accepted).1).2
    · intro none
      exact ⟨_, failFast_eq_ok_iff.mpr ⟨by simp [none], rfl⟩⟩
  · rw [both, failFast_eq_error_iff, List.head?_append, List.head?_filter]
  · rw [first, failFast_eq_error_iff, List.head?_filter]

/-- A string that is not allowed is reported first, and passed over for the number that is missing
from the second of the rows. -/
theorem extractValid_first_fault_rows :
    let map : FieldMap :=
      [("tag", .primitive .string ⟨true, false, { Options.empty with allowed := some ["x"] }⟩),
        ("rows", .object [("n", .primitive .number ⟨true, false, .empty⟩)] ⟨true, true, .empty⟩)]
    let document : Json := .object [("tag", .string "y"),
      ("rows", .array [.object [("n", .natural 1)], .object []])]
    map.Throughout Entries.Distinct ∧ map.Throughout FieldMap.Unbound ∧
      ∃ built, ObjectSchema.ofMap .standard map = .ok built ∧
        (built.validate document).faults.head? =
          some (.notAllowed "tag" .root "\"y\"" ["x"]) ∧
        (¬ ∃ extracted, extractValid .standard map document = .ok extracted) ∧
        extractValid .standard map document =
          .error (.missingField "n" ((Path.root.child "rows").element 1)) ∧
        extract .standard map document =
          .error (.missingField "n" ((Path.root.child "rows").element 1)) := by
  intro map document
  have objects : ∀ path inner, Nested map path inner →
      inner = map ∨ inner = [("n", .primitive .number ⟨true, false, .empty⟩)] := by
    intro path inner nested
    rcases nested with _ | ⟨member, nested⟩
    · exact .inl rfl
    · simp only [map, List.mem_cons, Prod.mk.injEq, reduceCtorEq, and_false, Field.object.injEq,
        List.not_mem_nil, or_false, false_or] at member
      obtain ⟨-, rfl, -⟩ := member
      rcases nested with _ | ⟨member, -⟩
      · exact .inr rfl
      · simp at member
  have distinct : map.Throughout Entries.Distinct := by
    intro path inner nested
    rcases objects path inner nested with rfl | rfl <;> simp [Entries.Distinct, map]
  have unbound : map.Throughout FieldMap.Unbound := by
    intro path inner nested name field member
    rcases objects path inner nested with rfl | rfl
    · rcases List.mem_pair.mp member with same | same <;> cases same <;> rfl
    · cases List.mem_singleton.mp member; rfl
  have complete : ObjectSchema.ofMap .standard map = .ok (.ofFields map) := rfl
  obtain ⟨accepted, refused, malformed⟩ :=
    extractValid_first_fault distinct unbound complete document
  refine ⟨distinct, unbound, _, complete, rfl, ?_, (refused _).mpr rfl, (malformed _).mpr rfl⟩
  rw [accepted]
  exact List.cons_ne_nil _ _

end FieldSchema
