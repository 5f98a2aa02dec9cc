import FieldSchema.Fault
import FieldSchema.Json.Text
import FieldSchema.Schema.Primitive

/-! The options of a field: those the language knows, and any others, which are kept as they are. -/
namespace FieldSchema

structure Options where
  allowed : Option (List String)
  maxLength : Option UInt64
  exactLength : Option UInt64
  atLeast : Option (List String)
  default : Option Json
  unique : Option Bool
  extra : Members

namespace Options

def empty : Options := ⟨none, none, none, none, none, none, []⟩

/-- One reference is written as a string, several as a list. -/
def referencesValue : List String → Json
  | [name] => .string name
  | names => .strings names

/-- The value of an option, as it is written in a schema. -/
def get (options : Options) (key : String) : Option Json :=
  if key = Key.allowed then options.allowed.map .strings
  else if key = Key.maxLength then options.maxLength.map .natural
  else if key = Key.exactLength then options.exactLength.map .natural
  else if key = Key.atLeast then options.atLeast.map referencesValue
  else if key = Key.default then options.default
  else if key = Key.unique then options.unique.map .bool
  else options.extra.lookup key

/-- The known options, in the order in which they are written. -/
def knownKeys : List String :=
  [Key.allowed, Key.maxLength, Key.exactLength, Key.atLeast, Key.default, Key.unique]

def known (options : Options) : Members :=
  knownKeys.filterMap fun key => (options.get key).map (key, ·)

/-- Adds all options to what is written of a field. -/
def writeTo (out : Members) (options : Options) : Members :=
  (options.known ++ options.extra).foldl (fun out (key, value) => Entries.set key value out) out

def sameValue : Option Json → Option Json → Bool
  | some a, some b => a.same b
  | none, none => true
  | _, _ => false

/-- Equality, for which the order of the other options does not count. -/
def same (a b : Options) : Bool :=
  a.allowed == b.allowed && a.maxLength == b.maxLength && a.exactLength == b.exactLength &&
    a.atLeast == b.atLeast && sameValue a.default b.default && a.unique == b.unique &&
    (Json.object a.extra).same (.object b.extra)

def isEmpty (options : Options) : Bool := options.same empty

/-! Reading. -/

/-- The options read so far, and whether the field is an array. -/
abbrev Draft := Options × Bool

def demand {α : Type} (problem : FieldProblem) : Option α → Except FieldProblem α
  | some a => .ok a
  | none => .error problem

/-- A name, or a list of names that is not empty. -/
def references? : Json → Option (List String)
  | .string name => some [name]
  | value => value.strings?.filter (!·.isEmpty)

/-- Takes in one option of a field of the given type, which is absent for an object. -/
def step (type : Option Primitive) : Draft → String × Json → Except FieldProblem Draft
  | (options, isArray), (key, value) =>
    if key = Key.array then
      (demand (.notBoolean key) value.bool?).map (options, ·)
    else if key = Key.allowed then
      if type = some .string then
        (demand (.notStrings key) value.strings?).map
          fun names => ({ options with allowed := some names }, isArray)
      else .error (.stringsOnly key)
    else if key = Key.maxLength then
      if type = some .string then
        (demand (.notLength key) value.natural?).map
          fun n => ({ options with maxLength := some n }, isArray)
      else .error (.stringsOnly key)
    else if key = Key.exactLength then
      if type = some .string then
        (demand (.notLength key) value.natural?).map
          fun n => ({ options with exactLength := some n }, isArray)
      else .error (.stringsOnly key)
    else if key = Key.atLeast then
      if type = some .number then
        (demand (.notReferences key) (references? value)).map
          fun names => ({ options with atLeast := some names }, isArray)
      else .error (.numbersOnly key)
    else if key = Key.default then .ok ({ options with default := some value }, isArray)
    else if key = Key.unique then
      (demand (.notBoolean key) value.bool?).map
        fun flag => ({ options with unique := some flag }, isArray)
    else if key = Key.type ∨ key = Key.required then .error (.implied key)
    else .ok ({ options with extra := Entries.set key value options.extra }, isArray)

/-- Whether `value` may stand for an absent field: an object has no default. -/
def suits (type : Option Primitive) (isArray : Bool) (value : Json) : Bool :=
  match type with
  | none => false
  | some type =>
    if isArray then value.array?.any (·.all type.holds) else type.holds value

def expected (type : Option Primitive) (isArray : Bool) : String :=
  match type with
  | none => "nothing (object fields take no default)"
  | some type => typeLabel type.name isArray

/-- The default is looked at last: the flag that makes the field an array may follow it. -/
def checkDefault (type : Option Primitive) : Draft → Except FieldProblem Draft
  | (options, isArray) =>
    match options.default with
    | none => .ok (options, isArray)
    | some value =>
      if suits type isArray value then .ok (options, isArray)
      else .error (.wrongDefault value.compact (expected type isArray))

/-- Reads the options of one field. -/
def read (type : Option Primitive) (entries : Members) : Except FieldProblem Draft := do
  checkDefault type (← entries.foldlM (step type) (empty, false))

/-- The options of the field `name` in the object at `path`. -/
def ofMembers (type : Option Primitive) (path : Path) (name : String) (entries : Members) :
    Except Fault Draft :=
  (read type entries).mapError fun problem => .malformedSchema path (.badField name problem)

end Options

end FieldSchema
