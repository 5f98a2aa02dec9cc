import FieldSchema.Report
import FieldSchema.Rule.Cross
import FieldSchema.Rule.Value
import FieldSchema.Settings
import FieldSchema.Walk

/-! Object schemas check whole documents. The hooks of an object run first, and one that fails is
all that is reported of the object; otherwise every fault of its fields is. -/
namespace FieldSchema

/-- What is checked of an object before its fields. A custom hook sees the object alone. -/
inductive Hook where
  | cross (check : Rule.CrossCheck)
  | custom (name : String) (run : Members → Except Fault Unit)

namespace Hook

def name : Hook → String
  | .cross check => check.rule.name
  | .custom name _ => name

def run (document : Members) (path : Path) : Hook → Except Fault Unit
  | .cross check => check.check document path
  | .custom _ run => run document

def describe : Hook → Json
  | .cross check =>
    .object [("name", .string check.rule.name), ("fields", .strings check.fields),
      ("message", .string check.rule.message)]
  | .custom name _ => .object [("name", .string name)]

/-- The fault of the first hook that fails. -/
def firstFault (document : Members) (path : Path) : List Hook → Option Fault
  | [] => none
  | hook :: rest =>
    match hook.run document path with
    | .error fault => some fault
    | .ok () => firstFault document path rest

/-- The report on an object: its first hook that fails is all that is reported of it. -/
def guard (document : Members) (path : Path) (hooks : List Hook) (fields : Report) : Report :=
  match firstFault document path hooks with
  | some fault => .single fault
  | none => fields

end Hook

/-- What an entry says beside its type; an object has neither default, nor allowed values, nor
limits. -/
structure EntryTraits where
  required : Bool
  isArray : Bool
  default : Option Json
  allowed : Option (List String)
  unique : Option Bool
  limits : List Rule.Limit

inductive Entry where
  | primitive (type : Primitive) (traits : EntryTraits)
  | object (fields : List (String × Entry)) (hooks : List Hook) (traits : EntryTraits)

structure ObjectSchema where
  fields : List (String × Entry)
  hooks : List Hook

namespace Entry

def traits : Entry → EntryTraits
  | .primitive _ traits => traits
  | .object _ _ traits => traits

def base : Entry → String
  | .primitive type _ => type.name
  | .object .. => Tag.object.name

def label (entry : Entry) : String := typeLabel entry.base entry.traits.isArray

/-- Checks one value of a primitive field. It can break rules only if its type is right. -/
def checkPrimitive (name : String) (path : Path) (type : Primitive) (traits : EntryTraits)
    (report : Report) (value : Json) : Report :=
  if type.holds value then
    let report := match traits.allowed with
      | some names => report.note (Rule.checkAllowed name path names value)
      | none => report
    traits.limits.foldl (fun report limit => report.note (limit.check name path value)) report
  else report.add (.typeMismatch name path value.compact type.name)

/-- Checks what should be an object. An object has a report of its own, which is merged. -/
def checkObject (name : String) (path : Path) (inner : Members → Report) (report : Report) :
    Json → Report
  | .object members => report.merge (inner members)
  | value => report.add (.typeMismatch name path value.compact Tag.object.name)

mutual

/-- Checks the value of the field `name` in the object at `path`. -/
def check (name : String) (path : Path) (value : Json) : Entry → Report → Report
  | .primitive type traits, report =>
    if traits.isArray then
      match value with
      | .array items => items.foldl (checkPrimitive name path type traits) report
      | _ => report.add (.typeMismatch name path value.compact (typeLabel type.name true))
    else checkPrimitive name path type traits report value
  | .object fields hooks traits, report =>
    let inner (here : Path) (members : Members) : Report :=
      Hook.guard members here hooks (checkFields here members fields .success)
    if traits.isArray then
      match value with
      | .array items =>
        items.zipIdx.foldl (fun report (item, i) =>
          checkObject name path (inner ((path.child name).element i)) report item) report
      | _ => report.add (.typeMismatch name path value.compact (typeLabel Tag.object.name true))
    else checkObject name path (inner (path.child name)) report value

/-- Checks the fields of an object in turn. -/
def checkFields (path : Path) (document : Members) : List (String × Entry) → Report → Report
  | [], report => report
  | (name, entry) :: rest, report =>
    checkFields path document rest
      (match document.lookup name with
        | some value => check name path value entry report
        | none => if entry.traits.required then report.add (.missingField name path) else report)

end

mutual

/-- The value of a field with the defaults of the objects inside it. -/
def fill (value : Json) : Entry → Json
  | .primitive .. => value
  | .object fields _ traits =>
    let inner : Json → Json
      | .object members => .object (fillFields members fields)
      | value => value
    if traits.isArray then
      match value with
      | .array items => .array (items.map inner)
      | _ => value
    else inner value

/-- The declared fields, with a default for each that has one and is absent. -/
def fillFields (document : Members) : List (String × Entry) → Members
  | [] => []
  | (name, entry) :: rest =>
    (match document.lookup name with
      | some value => [(name, fill value entry)]
      | none => (entry.traits.default.map (name, ·)).toList) ++ fillFields document rest

end

def limitValue (limit : Rule.Limit) : Json :=
  .object [("option", .string limit.rule.key), ("limit", limit.limitValue),
    ("message", .string limit.rule.message)]

def traitMembers (type : Json) (traits : EntryTraits) : Members :=
  [("type", if traits.isArray then .array [type] else type),
    ("required", .bool traits.required)] ++
    (traits.default.map ("default", ·)).toList ++
    (traits.allowed.map fun allowed => ("enum", Json.strings allowed)).toList ++
    (traits.unique.map fun unique => ("unique", Json.bool unique)).toList ++
    (if traits.limits.isEmpty then [] else [("validate", .array (traits.limits.map limitValue))])

/-- The description of one object: its fields, and its hooks if it has any. -/
def schemaValue (fields : Members) (hooks : List Hook) : Json :=
  .object ([("fields", .object fields)] ++
    if hooks.isEmpty then [] else [("hooks", .array (hooks.map Hook.describe))])

mutual

def describe : Entry → Json
  | .primitive type traits => .object (traitMembers (.string type.name) traits)
  | .object fields hooks traits =>
    .object (traitMembers (schemaValue (describeFields fields) hooks) traits)

def describeFields : List (String × Entry) → Members
  | [] => []
  | (name, entry) :: rest => (name, describe entry) :: describeFields rest

end

end Entry

namespace ObjectSchema

def empty : ObjectSchema := ⟨[], []⟩

def field? (schema : ObjectSchema) (name : String) : Option Entry := schema.fields.lookup name

/-- Adds a hook behind those that are there. -/
def addHook (schema : ObjectSchema) (name : String) (run : Members → Except Fault Unit) :
    ObjectSchema :=
  { schema with hooks := schema.hooks ++ [.custom name run] }

def validate (schema : ObjectSchema) : Json → Report
  | .object members =>
    Hook.guard members .root schema.hooks
      (Entry.checkFields .root members schema.fields .success)
  | value => .single (.notAnObject value.kind.name)

/-- Fills in defaults, leaves out what is not declared, and validates what results. -/
def construct (schema : ObjectSchema) : Json → Except Report Json
  | .object members =>
    let built := .object (Entry.fillFields members schema.fields)
    if (schema.validate built).valid then .ok built else .error (schema.validate built)
  | value => .error (.single (.notAnObject value.kind.name))

def describe (schema : ObjectSchema) : Json :=
  Entry.schemaValue (Entry.describeFields schema.fields) schema.hooks

def primitiveTraits (traits : Traits) : EntryTraits :=
  ⟨traits.required, traits.isArray, traits.options.default, traits.options.allowed,
    traits.options.unique, Rule.limits traits.options⟩

def objectTraits (traits : Traits) : EntryTraits :=
  ⟨traits.required, traits.isArray, none, none, traits.options.unique, []⟩

def add (schema : ObjectSchema) (name : String) (entry : Entry) (hooks : List Hook) :
    ObjectSchema :=
  ⟨schema.fields ++ [(name, entry)], schema.hooks ++ hooks⟩

def builder : Visitor (Except Fault) ObjectSchema Primitive where
  empty := .empty
  mapType := .ok
  onPrimitive place out type _ :=
    .ok (out.add place.name (.primitive type (primitiveTraits place.field.traits))
      ((Rule.crossChecks place.name place.field.options).map .cross))
  onObject place out children :=
    match children with
    | .single child =>
      let traits := objectTraits place.field.traits
      .ok (out.add place.name (.object child.fields child.hooks traits) [])
    | .many _ => .error (.malformedSchema place.path (.dataGiven "object"))
  finish _ out _ := .ok out

/-- The object schema of a field map. -/
def ofMap (settings : Settings) (map : FieldMap) : Except Fault ObjectSchema :=
  builder.visit settings.maxDepth map none

end ObjectSchema

end FieldSchema
