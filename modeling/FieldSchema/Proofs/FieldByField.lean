import FieldSchema.Proofs.Construct
import FieldSchema.Proofs.FirstFault

/-! Faults of a field beside those of others. Where no rule binds the outermost fields of a document,
its report is put together of the reports on each of them alone, in the order of the fields; what is
wrong with one of them neither hides nor repeats what is wrong with another. -/
namespace FieldSchema

theorem FieldMap.Fits.alone {limit depth : Nat} {map : FieldMap} {entry : String × Field}
    (fits : map.Fits limit depth) (member : entry ∈ map) : FieldMap.Fits limit depth [entry] := by
  obtain ⟨here, below⟩ := everywhere_iff.mp fits
  refine everywhere_iff.mpr ⟨here, fun name inner traits listed => ?_⟩
  cases List.mem_singleton.mp listed
  exact below name inner traits member

theorem FieldMap.Unbound.alone {map : FieldMap} {entry : String × Field} (unbound : map.Unbound)
    (member : entry ∈ map) : FieldMap.Unbound [entry] := by
  intro name field listed
  cases List.mem_singleton.mp listed
  exact unbound name field member

namespace Audit

variable {path : Path} {members : Members}

/-- An object with nothing wrong beside its fields has the faults of each field. -/
theorem hooked_level_eq_flatMap {fields : FieldMap} (unbound : fields.Unbound) :
    hooked.level ⟨path, members, fields⟩ =
      fields.flatMap fun (name, field) => hooked.entry path members name field := by
  have own : hooked.object ⟨path, members, fields⟩ = [] := hooked_object_of_unbound unbound
  rw [level, own, close_nil, fields_eq_flatMap]

theorem hooked_level_eq_alone {fields : FieldMap} (unbound : fields.Unbound) :
    hooked.level ⟨path, members, fields⟩ =
      fields.flatMap fun entry => hooked.level ⟨path, members, [entry]⟩ := by
  rw [hooked_level_eq_flatMap unbound]
  refine List.flatMap_congr fun entry member => ?_
  rw [hooked_level_eq_flatMap (unbound.alone member), List.flatMap_singleton]

end Audit

namespace ObjectSchema

variable {settings : Settings} {map : FieldMap} {schema built : ObjectSchema} {document : Json}

/-- A document is refused with the report on what was filled in, or on what is no object. -/
theorem faults_of_construct {report : Report} (refused : schema.construct document = .error report) :
    report.valid = false ∧ report.faults ≠ [] := by
  cases document with
  | object members =>
    unfold construct at refused
    dsimp only at refused
    split at refused
    · cases refused
    · next invalid =>
      cases refused
      exact ⟨by simpa using invalid, fun none => invalid (valid_iff_no_faults.mpr none)⟩
  | null | bool | number | string | array =>
    cases refused
    exact ⟨rfl, List.cons_ne_nil _ _⟩

/-- The schemas of the fields of a map, each of them alone. -/
theorem mapM_alone (fits : map.Fits settings.maxDepth 0) :
    map.mapM (fun entry => ofMap settings [entry]) = .ok (map.map fun entry => ofFields [entry]) := by
  refine (mapM_eq_ok_iff_map fun entry _ schema => ?_).mpr ⟨rfl, fun _ => fits.alone⟩
  rw [ofMap_eq_ok_iff, and_comm]

/-- No field hides what is wrong with another. If no rule binds its outermost fields, a schema
reports of an object what the schemas of the fields alone report, one after the other. Whatever the
hooks of a schema are, a report is valid exactly if it has no faults, and a document that is refused is
refused for a fault. -/
theorem faults_field_by_field (unbound : map.Unbound) (complete : ofMap settings map = .ok built) :
    (∃ parts, map.mapM (fun entry => ofMap settings [entry]) = .ok parts ∧ ∀ members,
      (built.validate (.object members)).faults =
        parts.flatMap (fun part => (part.validate (.object members)).faults) ∧
      built.validate (.object members) =
        (parts.map fun part => part.validate (.object members)).foldl .merge .success) ∧
    ∀ (schema : ObjectSchema) (document : Json),
      ((schema.validate document).valid = true ↔ (schema.validate document).faults = []) ∧
      ∀ report, schema.construct document = .error report →
        report.valid = false ∧ report.faults ≠ [] := by
  obtain ⟨fits, rfl⟩ := ofMap_eq_ok_iff.mp complete
  refine ⟨⟨_, mapM_alone fits, fun members => ?_⟩,
    fun schema document => ⟨valid_iff_no_faults, fun report => faults_of_construct⟩⟩
  have reported : (ofFields map).faults (.object members) =
      (map.map fun entry => ofFields [entry]).flatMap fun part => part.faults (.object members) := by
    simp only [List.flatMap_map, faults_ofFields]
    exact Audit.hooked_level_eq_alone unbound
  simp only [validate_eq]
  exact ⟨reported, (congrArg Report.ofFaults reported).trans (Report.ofFaults_flatMap _ _)⟩

/-- A string that is not allowed, a rule that the first of the rows breaks, and a number that is
missing. -/
theorem faults_field_by_field_of_rows :
    let number : Field := .primitive .number ⟨true, false, .empty⟩
    let least : Field := .primitive .number
      ⟨false, false, { Options.empty with atLeast := some ["low"] }⟩
    let map : FieldMap :=
      [("tag", .primitive .string ⟨true, false, { Options.empty with allowed := some ["x"] }⟩),
        ("rows", .object [("high", least), ("low", number)] ⟨true, true, .empty⟩), ("n", number)]
    let members : Members := [("rows", .array
      [.object [("high", .natural 1), ("low", .natural 2)], .object [("high", .natural 1), ("low", .null)],
        .null]), ("tag", .string "y")]
    let row (i : Nat) : Path := (Path.root.child "rows").element i
    map.Unbound ∧ ∃ built parts, ofMap .standard map = .ok built ∧
      map.mapM (fun entry => ofMap .standard [entry]) = .ok parts ∧
      (built.validate (.object members)).faults =
        parts.flatMap (fun part => (part.validate (.object members)).faults) ∧
      parts.map (fun part => (part.validate (.object members)).faults) =
        [[.notAllowed "tag" .root "\"y\"" ["x"]],
          [.crossRuleBroken (row 0) ["high", "low"] Rule.Cross.atLeast.message,
            .crossRuleBroken (row 1) ["high", "low"] Rule.Cross.atLeast.message,
            .typeMismatch "rows" .root "null" "object"],
          [.missingField "n" .root]] := by
  intro number least map members row
  have unbound : map.Unbound := by
    intro name field member
    simp only [map, List.mem_cons, List.not_mem_nil, or_false, Prod.mk.injEq] at member
    rcases member with ⟨-, rfl⟩ | ⟨-, rfl⟩ | ⟨-, rfl⟩ <;> rfl
  obtain ⟨built, complete⟩ : ∃ built, ofMap .standard map = .ok built := ⟨_, rfl⟩
  obtain ⟨⟨parts, alone, reported⟩, -⟩ := faults_field_by_field unbound complete
  refine ⟨unbound, built, parts, complete, alone, (reported members).1, ?_⟩
  cases alone
  rfl

end ObjectSchema

end FieldSchema
