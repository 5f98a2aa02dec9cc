import FieldSchema.Rule.Cross
import FieldSchema.Rule.Value
import FieldSchema.Settings
import FieldSchema.Walk

/-! Extraction: the declared fields of a document, in the order of their declaration. The first
fault ends it. Validation looks at what was extracted: allowed values and limits field by field,
then the rules between the fields of each object. -/
namespace FieldSchema.Extraction

/-- Which fields are kept: those without the option `key`, and those whose option is accepted. -/
structure Filter where
  key : String
  accepts : Json → Bool

/-- The option `key` of a field; an array has the option `array`, and no other field has. -/
def option (field : Field) (key : String) : Option Json :=
  if key = Key.array then if field.isArray then some (.bool true) else none
  else field.options.get key

def Filter.keeps (filter : Filter) (field : Field) : Bool :=
  (option field filter.key).all filter.accepts

def keeps (filter : Option Filter) (field : Field) : Bool := filter.all (·.keeps field)

/-- The first value that is not of the type is at fault. -/
def checkTypes (place : Place) (type : Primitive) (values : List Json) : Except Fault Unit :=
  values.forM fun value =>
    if type.holds value then .ok () else .error (place.mismatch value type.name)

def childrenValue : Children Members → Json
  | .single members => .object members
  | .many children => .array (children.map .object)

/-- A field that is not kept is checked all the same. -/
def extractor (filter : Option Filter) : Visitor (Except Fault) Members Primitive where
  empty := []
  mapType := .ok
  onPrimitive place out type found :=
    match found with
    | none => .ok out
    | some found => do
      checkTypes place type found.values
      return if keeps filter place.field then out ++ [(place.name, found.toValue)] else out
  onObject place out children :=
    .ok (if keeps filter place.field then out ++ [(place.name, childrenValue children)] else out)
  finish _ out _ := .ok out

def checkValue (place : Place) (value : Json) : Except Fault Unit := do
  match place.field.options.allowed with
  | some allowed => Rule.checkAllowed place.name place.path allowed value
  | none => pure ()
  (Rule.limits place.field.options).forM fun limit => limit.check place.name place.path value

/-- Gathers the rules between the fields of an object, and runs them at its end. -/
def checker : Visitor (Except Fault) (List Rule.CrossCheck) Unit where
  empty := []
  mapType _ := .ok ()
  onPrimitive place out _ found :=
    match found with
    | none => .ok out
    | some found => do
      found.values.forM (checkValue place)
      return out ++ Rule.crossChecks place.name place.field.options
  onObject _ out _ := .ok out
  finish path out document :=
    match document with
    | none => .ok out
    | some members => do
      out.forM fun check => check.check members path
      return []

end Extraction

section

open Extraction

variable (settings : Settings) (map : FieldMap) (document : Json)

def extractKept (filter : Option Extraction.Filter) : Except Fault Json :=
  ((extractor filter).visit settings.maxDepth map (some document)).map .object

/-- The declared fields of `document`. -/
def extract : Except Fault Json := extractKept settings map document none

/-- The declared fields of `document` that are kept. -/
def extractWhere (filter : Extraction.Filter) : Except Fault Json :=
  extractKept settings map document (some filter)

/-- The declared fields of `document`, if they obey their rules. -/
def extractValid : Except Fault Json := do
  let extracted ← extract settings map document
  let _ ← checker.visit settings.maxDepth map (some extracted)
  return extracted

end

end FieldSchema
