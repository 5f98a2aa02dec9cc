import FieldSchema.Calendar
import FieldSchema.Json.Value

/-! The types of field values, and the tags under which fields are declared. -/
namespace FieldSchema

/-- A date is a string. -/
inductive Primitive where
  | string | number | boolean | date
  deriving DecidableEq

namespace Primitive

def name : Primitive → String
  | .string => "string"
  | .number => "number"
  | .boolean => "boolean"
  | .date => "date"

/-- Whether `value` is of this type. -/
def holds : Primitive → Json → Bool
  | .string, .string _ => true
  | .number, .number _ => true
  | .boolean, .bool _ => true
  | .date, .string s => Calendar.isDate s || Calendar.isDateTime s
  | _, _ => false

end Primitive

inductive Tag where
  | primitive (type : Primitive)
  | object
  deriving DecidableEq

namespace Tag

def name : Tag → String
  | .primitive type => type.name
  | .object => "object"

def parse? : String → Option Tag
  | "string" => some (.primitive .string)
  | "number" => some (.primitive .number)
  | "boolean" => some (.primitive .boolean)
  | "date" => some (.primitive .date)
  | "object" => some .object
  | _ => none

/-- What is said of a tag that `parse?` refuses. -/
def refusal (name : String) : String := s!"unknown type: {name}"

end Tag

/-- How a type is called where a value of it was expected. -/
def typeLabel (base : String) (isArray : Bool) : String :=
  if isArray then "array of " ++ base else base

end FieldSchema
