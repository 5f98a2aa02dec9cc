import FieldSchema.Schema.Declaration
import FieldSchema.Schema.Field
import FieldSchema.Settings

/-! Flattening: the fields of a collection as one field map, whatever half and group they stand in.
Flattening runs in any monad with faults, and gives a notice of each field that a later
declaration replaces. -/
namespace FieldSchema

/-- The field `name` of the object at `path` was declared again, and the later declaration kept. -/
structure Notice where
  name : String
  path : Path
  deriving DecidableEq

def Notice.message (notice : Notice) : String :=
  s!"field \"{notice.name}\" at {notice.path.text} declared more than once, " ++
    "keeping the later declaration"

namespace Collection

def requirednessOf (field : Field) : String := if field.required then Key.required else Key.optional

/-- How a field is called where it clashes with another. -/
def describe (field : Field) : String := requirednessOf field ++ " " ++ field.label

section

variable {m : Type → Type} [Monad m] [MonadExceptOf Fault m] (notify : Notice → m Unit)
  (settings : Settings)

def addField (path : Path) (map : FieldMap) (name : String) (field : Field) : m FieldMap := do
  match map.get? name with
  | none => pure ()
  | some earlier =>
    match settings.duplicates with
    | .reject =>
      throw (.malformedSchema path (.repeated name (describe earlier) (describe field)))
    | .lastWins => notify ⟨name, path⟩
  return map.insert name field

/-- The fields of one object: `add` puts them into an empty map, unless the object is too deep. -/
def flattenLevel (path : Path) (add : FieldMap → m FieldMap) : m FieldMap := do
  if settings.maxDepth ≤ path.depth then throw (.tooDeep path settings.maxDepth)
  let map ← add .empty
  MonadExcept.ofExcept (map.checkReferences path)
  return map

def traitsOf (required : Bool) (declared : Declared) : Traits :=
  ⟨required, declared.isArray, declared.options⟩

mutual

def addGroup (path : Path) (required : Bool) (map : FieldMap) : Group → m FieldMap
  | .primitive type fields =>
    fields.foldlM (fun map declared => addField notify settings path map declared.name
      (.primitive type (traitsOf required declared))) map
  | .object fields => addObjects path required map fields

def addObjects (path : Path) (required : Bool) (map : FieldMap) :
    List (Declared × List (Half Group)) → m FieldMap
  | [] => return map
  | (declared, collection) :: rest => do
    let fields ← flattenLevel settings (path.child declared.name) fun done =>
      addHalves (path.child declared.name) done collection
    let map ← addField notify settings path map declared.name
      (.object fields (traitsOf required declared))
    addObjects path required map rest

def addHalves (path : Path) (map : FieldMap) : List (Half Group) → m FieldMap
  | [] => return map
  | ⟨required, groups⟩ :: rest => do
    let map ← addGroups path required map groups
    addHalves path map rest

def addGroups (path : Path) (required : Bool) (map : FieldMap) : List Group → m FieldMap
  | [] => return map
  | group :: rest => do
    let map ← addGroup path required map group
    addGroups path required map rest

end

/-- The field map of a collection, with notices. -/
def flattenNoting (collection : Collection) : m FieldMap :=
  flattenLevel settings .root fun done => addHalves notify settings .root done collection

end

def flatten (settings : Settings) (collection : Collection) : Except Fault FieldMap :=
  flattenNoting (fun _ => pure ()) settings collection

end Collection

end FieldSchema
