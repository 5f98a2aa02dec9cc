import FieldSchema.Patch
import FieldSchema.Schema.Primitive
import FieldSchema.Schema.Key

/-! A private schema laid over a public one. Each field that the private side declares first moves,
on the public side, to the half and the tag under which the private side has it; the two sides
together are its slot. A declaration under another tag is dropped instead. -/
namespace FieldSchema.Overlay

def within (f : Members → Members) : Json → Json
  | .object members => .object (f members)
  | value => value

def member? (key : String) (value : Json) : Option Json :=
  value.object?.bind (List.lookup key)

/-- Rewrites the fields of a slot, which is made if it is missing. -/
def updateSlot (half tag : String) (f : Members → Members) (schema : Members) : Members :=
  Entries.modify half
    (within fun groups => Entries.modify tag (within f) (Entries.ensure tag (.object []) groups))
    (Entries.ensure half (.object []) schema)

def halves : List String := [Key.required, Key.optional]

def otherHalf (half : String) : String := if half = Key.required then Key.optional else Key.required

/-- Leaves `name` in no slot but the one given. -/
def eraseElsewhere (half tag name : String) (schema : Members) : Members :=
  halves.foldl (fun schema other =>
    Entries.modify other (within (List.map fun (key, fields) =>
      (key, if other = half && key = tag then fields else within (Entries.erase name) fields)))
      schema) schema

/-- The declaration of `name` in the other half, under the same tag. -/
def declaredOpposite (half tag name : String) (schema : Members) : Option Json :=
  ((schema.lookup (otherHalf half)).bind (member? tag)).bind (member? name)

/-- Moves the declaration of `name` to its slot, unless there is one already. -/
def move (half tag name : String) (schema : Members) : Members :=
  let cleared := eraseElsewhere half tag name schema
  match declaredOpposite half tag name schema with
  | some declaration => updateSlot half tag (Entries.ensure name declaration) cleared
  | none => cleared

mutual

/-- Moves the fields that one half of the overlay declares. -/
def relocateHalf (half : String) (schema : Members) : Members → Members
  | [] => schema
  | (key, groups) :: rest =>
    if key = half then relocateGroups half schema groups else relocateHalf half schema rest
termination_by structural x => x

def relocateGroups (half : String) (schema : Members) : Json → Members
  | .object groups => relocateEachGroup half schema groups
  | _ => schema
termination_by structural x => x

def relocateEachGroup (half : String) (schema : Members) : Members → Members
  | [] => schema
  | (tag, fields) :: rest =>
    relocateEachGroup half (relocateFields half tag schema fields) rest
termination_by structural x => x

def relocateFields (half tag : String) (schema : Members) : Json → Members
  | .object fields => relocateEachField half tag schema fields
  | _ => schema
termination_by structural x => x

def relocateEachField (half tag : String) (schema : Members) : Members → Members
  | [] => schema
  | (name, declaration) :: rest =>
    relocateEachField half tag (relocateField half tag name schema declaration) rest
termination_by structural x => x

/-- A null declares nothing. Below an object, both sides go on with their nested fields. -/
def relocateField (half tag name : String) (schema : Members) : Json → Members
  | .null => schema
  | .object nested =>
    let moved := move half tag name schema
    if tag = Tag.object.name then
      updateSlot half tag (Entries.modify name (within fun inner =>
        relocateHalf Key.optional (relocateHalf Key.required inner nested) nested)) moved
    else moved
  | _ => move half tag name schema
termination_by structural x => x

end

def relocate (schema overlay : Members) : Members :=
  relocateHalf Key.optional (relocateHalf Key.required schema overlay) overlay

/-- The public schema with its fields where the private one has them. -/
def relocated (base overlay : Json) : Json :=
  match base, overlay with
  | .object schema, .object members => .object (relocate schema members)
  | _, _ => base

/-- Lays a private schema over a public one. -/
def merge (base overlay : Json) : Json := (relocated base overlay).overlaid overlay

end FieldSchema.Overlay
