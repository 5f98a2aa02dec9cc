import FieldSchema.Schema.Field

/-! The way through a field map, with or without a document: fields in their order, and the fields
of an object before the object itself. -/
namespace FieldSchema

/-- A field of the object at `path`. -/
structure Place where
  name : String
  path : Path
  field : Field

/-- What a document holds for a field. -/
inductive Found where
  | single (value : Json)
  | elements (items : List Json)

namespace Found

def values : Found → List Json
  | .single value => [value]
  | .elements items => items

/-- The value as it stands in the document. -/
def toValue : Found → Json
  | .single value => value
  | .elements items => .array items

end Found

/-- What was gathered below an object field: of one object, or of each element of an array. -/
inductive Children (α : Type) where
  | single (child : α)
  | many (children : List α)

/-- What is done on the way. `Out` is gathered for each object, and `Kind` is what a primitive type
is turned into before its field is visited. -/
structure Visitor (m : Type → Type) (Out Kind : Type) where
  empty : Out
  mapType : Primitive → m Kind
  onPrimitive : Place → Out → Kind → Option Found → m Out
  onObject : Place → Out → Children Out → m Out
  finish : Path → Out → Option Members → m Out

namespace Place

def mismatch (place : Place) (value : Json) (expected : String) : Fault :=
  .typeMismatch place.name place.path value.compact expected

def elements (place : Place) (value : Json) : Except Fault (List Json) :=
  match value with
  | .array items => .ok items
  | _ => .error (place.mismatch value place.field.label)

def members (place : Place) (value : Json) : Except Fault Members :=
  match value with
  | .object members => .ok members
  | _ => .error (place.mismatch value Tag.object.name)

/-- A value has to be an array exactly where the field is one. -/
def found (place : Place) (value : Json) : Except Fault Found :=
  if place.field.isArray then (place.elements value).map .elements else .ok (.single value)

end Place

namespace Visitor

open MonadExcept (ofExcept)

section

variable {m : Type → Type} [Monad m] [MonadExceptOf Fault m] {Out Kind : Type}
  (visitor : Visitor m Out Kind) (maxDepth : Nat)

/-- One object, unless it is too deep: its fields, then the end of it. -/
def level (path : Path) (document : Option Members) (body : Out → m Out) : m Out := do
  if maxDepth ≤ path.depth then throw (.tooDeep path maxDepth)
  visitor.finish path (← body visitor.empty) document

mutual

/-- A field with its value, if there is a document. -/
def walkField (path : Path) (name : String) (out : Out) (value : Option Json) : Field → m Out
  | .primitive type traits => do
    let place : Place := ⟨name, path, .primitive type traits⟩
    let kind ← visitor.mapType type
    match value with
    | none => visitor.onPrimitive place out kind none
    | some value => do
      let found ← ofExcept (place.found value)
      visitor.onPrimitive place out kind (some found)
  | .object fields traits => do
    let place : Place := ⟨name, path, .object fields traits⟩
    let inner (path : Path) (document : Option Members) : m Out :=
      level visitor maxDepth path document fun out => walkFields path document out fields
    match value with
    | none => do
      let child ← inner (path.child name) none
      visitor.onObject place out (.single child)
    | some value =>
      if traits.isArray then do
        let items ← ofExcept (place.elements value)
        let children ← items.zipIdx.mapM fun (item, i) => do
          let members ← ofExcept (place.members item)
          inner ((path.child name).element i) (some members)
        visitor.onObject place out (.many children)
      else do
        let members ← ofExcept (place.members value)
        let child ← inner (path.child name) (some members)
        visitor.onObject place out (.single child)

/-- A document may leave out the fields that are not required. -/
def walkFields (path : Path) (document : Option Members) (out : Out) :
    List (String × Field) → m Out
  | [] => pure out
  | (name, field) :: rest => do
    let out ← match document with
      | none => walkField path name out none field
      | some members =>
        match members.lookup name with
        | some value => walkField path name out (some value) field
        | none => if field.required then throw (.missingField name path) else pure out
    walkFields path document out rest

end

def walk (map : FieldMap) (document : Option Members) : m Out :=
  level visitor maxDepth .root document fun out =>
    walkFields visitor maxDepth .root document out map

/-- The way through `map`, against a document where one is given; the document has to be an
object. -/
def visit (map : FieldMap) : Option Json → m Out
  | none => visitor.walk maxDepth map none
  | some (.object members) => visitor.walk maxDepth map (some members)
  | some value => throw (.notAnObject value.kind.name)

end

end Visitor

end FieldSchema
