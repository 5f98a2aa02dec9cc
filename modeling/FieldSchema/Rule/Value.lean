import FieldSchema.Schema.Options

/-! Rules for a single value: the strings that are allowed, and limits on the length of a string,
which is counted in characters. -/
namespace FieldSchema.Rule

/-- Only a string can be allowed. -/
def isAllowed (allowed : List String) (value : Json) : Bool := value.string?.any allowed.contains

def checkAllowed (field : String) (path : Path) (allowed : List String) (value : Json) :
    Except Fault Unit :=
  if isAllowed allowed value then .ok ()
  else .error (.notAllowed field path value.compact allowed)

inductive Length where
  | max | exact
  deriving DecidableEq

namespace Length

def key : Length → String
  | .max => Key.maxLength
  | .exact => Key.exactLength

def message : Length → String
  | .max => "This string field is too long"
  | .exact => "This string field size does not match the required size"

def fits (n : Nat) (s : String) : Length → Bool
  | .max => s.length ≤ n
  | .exact => s.length = n

/-- Whether `value` is a string within the first argument. -/
def admits (rule : Length) (arguments : List Json) (value : Json) : Bool :=
  match value.string?, arguments.head?.bind Json.natural? with
  | some s, some n => rule.fits n.toNat s
  | _, _ => false

end Length

/-- A length rule with the limit that a field declares. -/
structure Limit where
  rule : Length
  limit : UInt64
  deriving DecidableEq

namespace Limit

def limitValue (bound : Limit) : Json := .natural bound.limit

def arguments (bound : Limit) : List Json := [bound.limitValue]

def admits (bound : Limit) (value : Json) : Bool := bound.rule.admits bound.arguments value

def check (bound : Limit) (field : String) (path : Path) (value : Json) : Except Fault Unit :=
  if bound.admits value then .ok ()
  else .error (.ruleBroken field path bound.rule.key bound.limitValue.compact value.compact
    bound.rule.message)

end Limit

def limits (options : Options) : List Limit :=
  (options.maxLength.map (Limit.mk .max)).toList ++
    (options.exactLength.map (Limit.mk .exact)).toList

end FieldSchema.Rule
