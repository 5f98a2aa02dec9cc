import FieldSchema.Host.Basic
import FieldSchema.Host.Location
import FieldSchema.Json.Reader
import FieldSchema.Yaml.Reader

/-! Documents in files. The suffix of a file's name says how it is written: `yaml` and `yml`, in any
case, are YAML, and anything else is JSON. -/
namespace FieldSchema

inductive DocumentFault where
  | unreadable (location : String) (problem : FileProblem)
  | malformed (location : String) (format : String)
  deriving DecidableEq

def DocumentFault.message : DocumentFault → String
  | .unreadable location problem => s!"failed to read {location}: {problem.message}"
  | .malformed location format => s!"failed to parse {format} in {location}: not a document"

namespace Document

/-- How many lists and objects may stand inside each other. -/
def roomOf (isYaml : Bool) : Nat := if isYaml then 128 else 127

def isYaml (location : String) : Bool :=
  (Host.Location.suffix? location).any fun suffix =>
    suffix.map Char.toLower = "yaml" || suffix.map Char.toLower = "yml"

def parse (location text : String) : Except DocumentFault Json :=
  if isYaml location then
    match Yaml.parse? (roomOf true) text with
    | some value => .ok value
    | none => .error (.malformed location "YAML")
  else
    match Json.parse? (roomOf false) text with
    | some value => .ok value
    | none => .error (.malformed location "JSON")

/-- The value that a file holds. -/
def read {m : Type → Type} [Monad m] [Host m] (location : String) :
    m (Except DocumentFault Json) := do
  match ← Host.read location with
  | .error problem => return .error (.unreadable location problem)
  | .ok text => return parse location text

end Document

end FieldSchema
