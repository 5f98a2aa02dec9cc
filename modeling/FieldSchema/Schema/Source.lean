import FieldSchema.Schema.Field.Reader
import FieldSchema.Schema.Flatten

/-! What a schema can be given as, and the field map that it stands for. -/
namespace FieldSchema

inductive Source where
  /-- Either a declared collection or a written field map. -/
  | written (schema : Json)
  | declared (collection : Collection)
  | normalized (map : FieldMap)

namespace Source

open MonadExcept (ofExcept)

section

variable {m : Type → Type} [Monad m] [MonadExceptOf Fault m] (notify : Notice → m Unit)
  (settings : Settings)

def normalizeValueNoting : Json → m FieldMap
  | .object members => do
    if FieldMap.isWrittenForm members then
      ofExcept (FieldMap.ofMembers settings.maxDepth members)
    else
      let collection ← ofExcept (Collection.ofMembers settings.maxDepth members)
      collection.flattenNoting notify settings
  | _ => throw (.malformedSchema .root .notAnObject)

/-- The field map of a source, with notices. -/
def normalizeNoting : Source → m FieldMap
  | .written schema => normalizeValueNoting notify settings schema
  | .declared collection => collection.flattenNoting notify settings
  | .normalized map => do
    if settings.maxDepth < map.depth then throw (.tooDeep .root settings.maxDepth)
    return map

end

/-- The field map of a schema that is written as a value. -/
def normalizeValue (settings : Settings) (schema : Json) : Except Fault FieldMap :=
  normalizeValueNoting (fun _ => pure ()) settings schema

/-- The field map of a source. -/
def normalize (settings : Settings) (source : Source) : Except Fault FieldMap :=
  source.normalizeNoting (fun _ => pure ()) settings

end Source

end FieldSchema
