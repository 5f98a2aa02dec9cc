import FieldSchema.Proofs.Depth
import FieldSchema.Proofs.FirstFault
import FieldSchema.Proofs.Wire

/-! What is left to fail once a source is normalized. The guard let every object of the map pass, so
an object schema and a wire schema are always built, and the walk over a document ends with no fault
but those of the document. The second pass over what was extracted finds its form right, so that a
fault in the form is one that extraction without rules ends with as well. -/
namespace FieldSchema

namespace Audit

variable {map : FieldMap} {document : Json} {fault : Fault}

/-- What an object has wrong beside its fields are rules of fields that are there. -/
theorem mem_checked_object_iff {level : Level} :
    fault ∈ checked.object level ↔ ∃ name field, (name, field) ∈ level.fields ∧
      Entries.has name level.members = true ∧ ∃ check ∈ field.checks name,
        check.admits level.members = false ∧ fault = check.fault level.path := by
  simp only [checked, List.mem_flatMap, Prod.exists]
  refine exists_congr fun name => exists_congr fun field => and_congr_right fun _ => ?_
  cases Entries.has name level.members with
  | false => simp
  | true => simp [Level.mem_broken_iff]

/-- Rules between fields say nothing of the form. -/
theorem filter_checked (map : FieldMap) (document : Json) :
    (checked.document map document).filter Fault.isStructural = shape.document map document := by
  refine @filter_document checked _ _ rfl rfl (fun _ structural => structural)
    filter_plain_value (fun level => ?_) map document
  apply List.filter_eq_nil_iff.mpr
  intro fault member
  obtain ⟨name, field, -, -, check, -, -, rfl⟩ := mem_checked_object_iff.mp member
  simp [Rule.CrossCheck.fault, Fault.isStructural]

end Audit

section

variable {settings : Settings} {map : FieldMap} {document : Json} {fault : Fault}

end

namespace Source

/-- A map that is given as such was made by insertion, which repeats no name in any object. -/
def Distinct : Source → Prop
  | .normalized map => map.Throughout Entries.Distinct
  | .written _ | .declared _ => True

variable {settings : Settings} {source : Source} {map : FieldMap}

end Source

namespace Compiler

variable {compiler : Compiler} {source : Source}

end Compiler

end FieldSchema
