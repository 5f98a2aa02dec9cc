import FieldSchema.Schema.Options

/-! Normalized fields: each is a primitive or an object of fields, with all that is declared of it.
A field map lists the fields of one object in the order in which they were declared. -/
namespace FieldSchema

structure Traits where
  required : Bool
  isArray : Bool
  options : Options

inductive Field where
  | primitive (type : Primitive) (traits : Traits)
  | object (fields : List (String × Field)) (traits : Traits)

abbrev FieldMap := List (String × Field)

namespace Field

def traits : Field → Traits
  | .primitive _ traits => traits
  | .object _ traits => traits

def required (field : Field) : Bool := field.traits.required

def isArray (field : Field) : Bool := field.traits.isArray

def options (field : Field) : Options := field.traits.options

def isNumber : Field → Bool
  | .primitive .number _ => true
  | _ => false

def base : Field → String
  | .primitive type _ => type.name
  | .object .. => Tag.object.name

def label (field : Field) : String := typeLabel field.base field.isArray

mutual

/-- How many objects are nested in the field, itself included. -/
def levels : Field → Nat
  | .primitive .. => 0
  | .object fields _ => 1 + deepest fields

def deepest : List (String × Field) → Nat
  | [] => 0
  | (_, field) :: rest => max field.levels (deepest rest)

end

/-- What is written of a field whose type is written as `type`. -/
def entry (type : Json) (traits : Traits) : Json :=
  .object (traits.options.writeTo
    ([(Key.type, type), (Key.required, .bool traits.required)] ++
      if traits.isArray then [(Key.array, .bool true)] else []))

mutual

def toValue : Field → Json
  | .primitive type traits => entry (.string type.name) traits
  | .object fields traits => entry (.object (toMembers fields)) traits

def toMembers : List (String × Field) → Members
  | [] => []
  | (name, field) :: rest => (name, field.toValue) :: toMembers rest

end

def sameTraits (a b : Traits) : Bool :=
  a.required == b.required && a.isArray == b.isArray && a.options.same b.options

mutual

/-- Equality, up to the order of options that the language does not know. -/
def same : Field → Field → Bool
  | .primitive s a, .primitive t b => decide (s = t) && sameTraits a b
  | .object fs a, .object gs b => sameFields fs gs && sameTraits a b
  | _, _ => false

def sameFields : List (String × Field) → List (String × Field) → Bool
  | [], [] => true
  | (name, f) :: fs, (other, g) :: gs => name == other && same f g && sameFields fs gs
  | _, _ => false

end

end Field

namespace FieldMap

def empty : FieldMap := []

def get? (map : FieldMap) (name : String) : Option Field := List.lookup name map

/-- Adds a field at the end. The first field of the same name is taken out and returned. -/
def exchange (map : FieldMap) (name : String) (field : Field) : Option Field × FieldMap :=
  match List.findIdx? (fun entry => entry.1 = name) map with
  | some i => (map[i]?.map Prod.snd, List.eraseIdx map i ++ [(name, field)])
  | none => (none, map ++ [(name, field)])

/-- Adds a field at the end, in place of an earlier one of the same name. -/
def insert (map : FieldMap) (name : String) (field : Field) : FieldMap :=
  (map.exchange name field).2

/-- The number of object levels, the outermost included. -/
def depth (map : FieldMap) : Nat := 1 + Field.deepest map

def toValue (map : FieldMap) : Json := .object (Field.toMembers map)

def same (a b : FieldMap) : Bool := Field.sameFields a b

/-- What is wrong with the reference `name` of a field beside those of `map`, if anything. -/
def badReference? (map : FieldMap) (name : String) : Option FieldProblem :=
  match map.get? name with
  | none => some (.reference "undeclared" name)
  | some field => if field.isNumber then none else some (.reference field.label name)

/-- A reference names a number beside the field that has it. -/
def checkReferences (path : Path) (map : FieldMap) : Except Fault Unit :=
  map.forM fun (name, field) =>
    (field.options.atLeast.getD []).forM fun reference =>
      match map.badReference? reference with
      | some problem => .error (.malformedSchema path (.badField name problem))
      | none => .ok ()

end FieldMap

end FieldSchema
