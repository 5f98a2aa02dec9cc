import FieldSchema.Path
import FieldSchema.Schema.Key

/-! What can be wrong with a schema or with a document, and how it is said. A value inside a fault
is its compact text. -/
namespace FieldSchema

/-- What is wrong with one declared field. -/
inductive FieldProblem where
  | notBoolean (key : String)
  | stringsOnly (key : String)
  | numbersOnly (key : String)
  | notStrings (key : String)
  | notLength (key : String)
  | notReferences (key : String)
  | implied (key : String)
  | wrongDefault (value expected : String)
  | objectTag
  | notType
  | reference (target : String) (name : String)
  deriving DecidableEq

def FieldProblem.message : FieldProblem → String
  | .notBoolean key => s!"\"{key}\" must be a boolean"
  | .stringsOnly key => s!"\"{key}\" only applies to string fields"
  | .numbersOnly key => s!"\"{key}\" only applies to number fields"
  | .notStrings key => s!"\"{key}\" must be a list of strings"
  | .notLength key => s!"\"{key}\" must be a non-negative integer"
  | .notReferences key => s!"\"{key}\" must name a field or a non-empty list of fields"
  | .implied key =>
    s!"\"{key}\" is implied by the declaration group and cannot be set as an option"
  | .wrongDefault value expected => s!"default value {value} should be a {expected}"
  | .objectTag => "object fields carry their nested fields as the type"
  | .notType => s!"\"{Key.type}\" must be a type name or an object"
  | .reference target name => s!"\"{Key.atLeast}\" refers to {target} field \"{name}\""

/-- What is wrong with a schema. -/
inductive Malformation where
  | notAnObject
  | unexpectedKey (key : String)
  | groupsExpected (half : String)
  | fieldsExpected (tag : String)
  | optionsExpected (field : String)
  | nestedExpected (field : String)
  | entryExpected (field : String)
  | badField (name : String) (problem : FieldProblem)
  | repeated (name earlier later : String)
  | dataGiven (product : String)
  | other (text : String)
  deriving DecidableEq

def Malformation.message : Malformation → String
  | .notAnObject => "a schema should be an object"
  | .unexpectedKey key => s!"expected \"{Key.required}\" or \"{Key.optional}\", found \"{key}\""
  | .groupsExpected half => s!"\"{half}\" should map type names to fields"
  | .fieldsExpected tag => s!"\"{tag}\" should map field names to options"
  | .optionsExpected field => s!"options of field \"{field}\" should be an object"
  | .nestedExpected field => s!"object field \"{field}\" should be a nested schema"
  | .entryExpected field => s!"field \"{field}\" should be an object"
  | .badField name problem => s!"field \"{name}\": {problem.message}"
  | .repeated name earlier later =>
    s!"field \"{name}\" is declared more than once (as {earlier} and as {later})"
  | .dataGiven product => s!"{product} schemas are built without a data instance"
  | .other text => text

inductive Fault where
  | malformedSchema (path : Path) (cause : Malformation)
  | unknownType (path : Path) (tag : String)
  | missingField (field : String) (path : Path)
  | notAnObject (found : String)
  | typeMismatch (field : String) (path : Path) (value expected : String)
  | notAllowed (field : String) (path : Path) (value : String) (allowed : List String)
  | ruleBroken (field : String) (path : Path) (rule limit value message : String)
  | crossRuleBroken (path : Path) (fields : List String) (message : String)
  | tooDeep (path : Path) (limit : Nat)
  deriving DecidableEq

namespace Fault

inductive Kind where
  | malformedSchema | unknownType | missingField | notAnObject | typeMismatch | notAllowed
  | ruleBroken | tooDeep
  deriving DecidableEq

/-- A broken rule is one kind of fault, whether it binds one field or several. -/
def kind : Fault → Kind
  | .malformedSchema .. => .malformedSchema
  | .unknownType .. => .unknownType
  | .missingField .. => .missingField
  | .notAnObject .. => .notAnObject
  | .typeMismatch .. => .typeMismatch
  | .notAllowed .. => .notAllowed
  | .ruleBroken .. | .crossRuleBroken .. => .ruleBroken
  | .tooDeep .. => .tooDeep

def message : Fault → String
  | .malformedSchema path cause => s!"malformed schema at {path.text}: {cause.message}"
  | .unknownType path tag => s!"unknown type: \"{tag}\" (declared at {path.text})"
  | .missingField field path =>
    s!"the key \"{field}\" in the object at {path.text} is required and should be present"
  | .notAnObject found => s!"the value to validate should be an object, got {found}"
  | .typeMismatch field path value expected =>
    s!"the value {value} that belongs to the key \"{field}\" in the object at {path.text} " ++
      s!"should be a {expected}"
  | .notAllowed field path value allowed =>
    s!"the enum \"{field}\" in the object at {path.text} with the value {value} " ++
      "must have one of the following values: " ++ ", ".intercalate allowed
  | .ruleBroken field path rule limit value message =>
    s!"the \"{rule}\" constraint with the value {limit} was not met by the field \"{field}\" " ++
      s!"in the object at {path.text} with the value {value} " ++
      s!"with an error message saying \"{message}\""
  | .crossRuleBroken path fields message =>
    s!"A constraint failed in the object at {path.text} with an error message saying " ++
      s!"\"{message}; Fields for validation: " ++ ",".intercalate fields ++ "\""
  | .tooDeep path limit =>
    s!"schema nesting at {path.text} exceeds the maximum depth of {limit}"

end Fault

end FieldSchema
