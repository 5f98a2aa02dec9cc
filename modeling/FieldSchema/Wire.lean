import FieldSchema.Settings
import FieldSchema.Walk

/-! Wire schemas, in the layout of JSON Type Definition. Each object field refers to a definition of
its own; the definitions are numbered in the order in which their objects end. -/
namespace FieldSchema.Wire

namespace Word

def properties := "properties"

def optionalProperties := "optionalProperties"

def definitions := "definitions"

def elements := "elements"

end Word

def typeName : Primitive → String
  | .string => "string"
  | .number => "float64"
  | .boolean => "boolean"
  | .date => "timestamp"

/-- The fields of one object. -/
structure Form where
  required : Members
  optional : Members

namespace Form

def empty : Form := ⟨[], []⟩

def add (form : Form) (name : String) (traits : Traits) (entry : Json) : Form :=
  let entry := if traits.isArray then .object [(Word.elements, entry)] else entry
  if traits.required then { form with required := form.required ++ [(name, entry)] }
  else { form with optional := form.optional ++ [(name, entry)] }

/-- A bucket of fields is left out if it is empty. -/
def bucket (word : String) (members : Members) : Members :=
  if members.isEmpty then [] else [(word, .object members)]

def members (form : Form) : Members :=
  bucket Word.properties form.required ++ bucket Word.optionalProperties form.optional

end Form

def primitiveEntry (typeName : String) (options : Options) : Json :=
  match options.allowed with
  | some allowed => .object [("enum", .strings allowed)]
  | none => .object [("type", .string typeName)]

def reference (name : String) : Json := .object [("ref", .string name)]

/-- What is kept between the fields: the number of the next reference, and the definitions so far. -/
structure Progress where
  next : Nat
  definitions : Members

def Progress.start : Progress := ⟨0, []⟩

/-- The monad of the builder. -/
abbrev Build := StateT Progress (Except Fault)

def allocate (settings : Settings) : Build String :=
  modifyGet fun progress =>
    (settings.refPrefix ++ toString progress.next, { progress with next := progress.next + 1 })

/-- Defines the next name. -/
def define (settings : Settings) (form : Form) : Build String := do
  let name ← allocate settings
  modify fun progress =>
    { progress with definitions := Entries.set name (.object form.members) progress.definitions }
  return name

def builder (settings : Settings) : Visitor Build Form String where
  empty := .empty
  mapType type := pure (typeName type)
  onPrimitive place out typeName _ :=
    pure (out.add place.name place.field.traits (primitiveEntry typeName place.field.options))
  onObject place out children :=
    match children with
    | .single child => do
      let name ← define settings child
      return out.add place.name place.field.traits (reference name)
    | .many _ => throw (.malformedSchema place.path (.dataGiven "wire"))
  finish _ out _ := pure out

def isBucket (key : String) : Bool :=
  key = Word.properties || key = Word.optionalProperties || key = Word.definitions

def isEmptyObject : Json → Bool
  | .object [] => true
  | _ => false

mutual

/-- Leaves out nulls and empty buckets at every depth; nothing is left of a null. -/
def prune : Json → Option Json
  | .null => none
  | .array items => some (.array (pruneItems items))
  | .object members => some (.object (pruneMembers members))
  | value => some value

def pruneItems : List Json → List Json
  | [] => []
  | item :: rest => (prune item).toList ++ pruneItems rest

def pruneMembers : Members → Members
  | [] => []
  | (key, value) :: rest =>
    (match prune value with
      | some value => if isBucket key && isEmptyObject value then [] else [(key, value)]
      | none => []) ++ pruneMembers rest

end

/-- The members of a document, before it is pruned. -/
def rootMembers (form : Form) (definitions : Members) : Members :=
  form.members ++ Form.bucket Word.definitions definitions

/-- The wire schema of a field map. -/
def ofMap (settings : Settings) (map : FieldMap) : Except Fault Json := do
  let (form, progress) ← (builder settings).visit settings.maxDepth map none |>.run .start
  return (prune (.object (rootMembers form progress.definitions))).getD (.object [])

end FieldSchema.Wire
