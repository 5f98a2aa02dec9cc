import FieldSchema.Proofs.Extraction
import FieldSchema.Proofs.Normalization

/-! Extraction of the fields that are kept. It is extraction of all declared fields, of which those
are then left out whose option is rejected; a field that is left out is checked like any other. -/
namespace FieldSchema

open Extraction

/-- The field has the option, and with a value that is not accepted. -/
def Extraction.Filter.rejects (filter : Filter) (field : Field) : Bool :=
  (option field filter.key).any fun value => !filter.accepts value

namespace Field

mutual

/-- The value of a field without the members inside it whose fields are rejected. -/
def strip (rejects : Field → Bool) (value : Json) : Field → Json
  | .primitive .. => value
  | .object fields traits =>
    value.mapObjects traits.isArray fun members =>
      members.filterMap fun (name, value) =>
        (stripMember rejects name value fields).map (name, ·)

/-- What is left of a member of an object with these fields. What is not declared stays. -/
def stripMember (rejects : Field → Bool) (name : String) (value : Json) :
    List (String × Field) → Option Json
  | [] => some value
  | (other, field) :: rest =>
    if other = name then if rejects field then none else some (strip rejects value field)
    else stripMember rejects name value rest

end

def stripMembers (rejects : Field → Bool) (members : Members) (fields : FieldMap) : Members :=
  members.filterMap fun (name, value) => (stripMember rejects name value fields).map (name, ·)

end Field

/-- A document without the members whose fields are rejected. -/
def FieldMap.strip (rejects : Field → Bool) (map : FieldMap) (document : Json) : Json :=
  document.mapMembers fun members => Field.stripMembers rejects members map

namespace Field

variable {rejects : Field → Bool} {name : String} {value : Json} {fields : FieldMap}

end Field

end FieldSchema
