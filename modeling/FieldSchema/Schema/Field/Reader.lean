import FieldSchema.Schema.Field

/-! Reading a field map from the form in which it is written: each member is an object whose `type`
is the name of a primitive or, for an object, its fields. -/
namespace FieldSchema

namespace FieldMap

/-- Whether every member has a type, as in a written field map. -/
def isWrittenForm (members : Members) : Bool :=
  members.all fun (_, value) => value.object?.any (Entries.has Key.type)

end FieldMap

namespace Field

def malformed (path : Path) (name : String) (problem : FieldProblem) : Fault :=
  .malformedSchema path (.badField name problem)

/-- A field that does not say so is not required. -/
def readRequired (path : Path) (name : String) (entry : Members) : Except Fault Bool :=
  match entry.lookup Key.required with
  | none => .ok false
  | some (.bool flag) => .ok flag
  | some _ => .error (malformed path name (.notBoolean Key.required))

def optionEntries (entry : Members) : Members :=
  entry.filter fun (key, _) => key ≠ Key.type && key ≠ Key.required

def readTraits (type : Option Primitive) (path : Path) (name : String) (required : Bool)
    (entry : Members) : Except Fault Traits := do
  let (options, isArray) ← Options.ofMembers type path name (optionEntries entry)
  return ⟨required, isArray, options⟩

def readPrimitive (path : Path) (name tag : String) (required : Bool) (entry : Members) :
    Except Fault Field :=
  match Tag.parse? tag with
  | some (.primitive type) =>
    (readTraits (some type) path name required entry).map (.primitive type)
  | some .object => .error (malformed path name .objectTag)
  | none => .error (.unknownType path tag)

/-- The fields of one object: `read` adds them to an empty map, unless the object is too deep. -/
def level (limit : Nat) (path : Path) (read : FieldMap → Except Fault FieldMap) :
    Except Fault FieldMap := do
  if limit ≤ path.depth then .error (.tooDeep path limit)
  let map ← read .empty
  map.checkReferences path
  return map

mutual

/-- Adds the members of an object at `path` to the fields that were read before. -/
def readFields (limit : Nat) (path : Path) (done : FieldMap) : Members → Except Fault FieldMap
  | [] => .ok done
  | (name, entry) :: rest => do
    let field ← readField limit path name entry
    readFields limit path (done.insert name field) rest

def readField (limit : Nat) (path : Path) (name : String) : Json → Except Fault Field
  | .object entry => do
    let required ← readRequired path name entry
    readTyped limit path name required entry entry
  | _ => .error (.malformedSchema path (.entryExpected name))

/-- Looks for the type among the members of `entry`. -/
def readTyped (limit : Nat) (path : Path) (name : String) (required : Bool) (entry : Members) :
    Members → Except Fault Field
  | [] => .error (malformed path name .notType)
  | (key, value) :: rest =>
    if key = Key.type then
      match value with
      | .string tag => readPrimitive path name tag required entry
      | .object members => do
        let fields ← level limit (path.child name) fun done =>
          readFields limit (path.child name) done members
        return .object fields (← readTraits none path name required entry)
      | _ => .error (malformed path name .notType)
    else readTyped limit path name required entry rest

end

end Field

/-- Reads a written field map of at most `limit` levels. -/
def FieldMap.ofMembers (limit : Nat) (members : Members) : Except Fault FieldMap :=
  Field.level limit .root fun done => Field.readFields limit .root done members

end FieldSchema
