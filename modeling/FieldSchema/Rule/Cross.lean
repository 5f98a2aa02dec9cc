import FieldSchema.Schema.Options

/-! Rules that bind several fields of one object. Fields that hold arrays are compared row by row,
and a field that holds a single value has it in every row. -/
namespace FieldSchema.Rule

/-- What a rule says of a row in which a value is missing: `propagate` leaves it to the rule. -/
inductive MissingPolicy where
  | pass | fail | propagate
  deriving DecidableEq

structure Cross where
  name : String
  message : String
  policy : MissingPolicy
  holds : List (Option Json) → Bool

/-- A rule for the fields of that name, the one that declares it first. -/
structure CrossCheck where
  rule : Cross
  fields : List String

/-- Whether the first number is at least each of the others. -/
def isLeading : List Float → Bool
  | [] => true
  | first :: rest => rest.all fun other => decide (other ≤ first)

def numbers? (values : List (Option Json)) : Option (List Float) :=
  values.mapM fun value => (value.bind Json.number?).map Number.toFloat

namespace Cross

def atLeast : Cross :=
  ⟨Key.atLeast, "The fields need to be in descending order or equal", .fail,
    fun values => (numbers? values).any isLeading⟩

def bind (rule : Cross) (fields : List String) : CrossCheck := ⟨rule, fields⟩

def admitsRow (rule : Cross) (values : List (Option Json)) : Bool :=
  if values.any Option.isNone then
    match rule.policy with
    | .pass => true
    | .fail => false
    | .propagate => rule.holds values
  else rule.holds values

end Cross

namespace CrossCheck

/-- The value of a field; `null` counts as none. -/
def present (document : Members) (name : String) : Option Json :=
  (document.lookup name).filter (!·.isNull)

/-- The number of rows: the length of the longest array, if there is any. -/
def rowCount (values : List (Option Json)) : Option Nat :=
  (values.filterMap fun value => (value.bind Json.array?).map List.length).max?

def cell (i : Nat) : Option Json → Option Json
  | some (.array items) => items[i]?
  | value => value

def row (values : List (Option Json)) (i : Nat) : List (Option Json) := values.map (cell i)

def admits (check : CrossCheck) (document : Members) : Bool :=
  let values := check.fields.map (present document)
  match rowCount values with
  | none => check.rule.admitsRow values
  | some n => (List.range n).all fun i => check.rule.admitsRow (row values i)

def fault (check : CrossCheck) (path : Path) : Fault :=
  .crossRuleBroken path check.fields check.rule.message

def check (check : CrossCheck) (document : Members) (path : Path) : Except Fault Unit :=
  if check.admits document then .ok () else .error (check.fault path)

end CrossCheck

/-- The checks that the field `name` declares. -/
def crossChecks (name : String) (options : Options) : List CrossCheck :=
  (options.atLeast.map fun references => Cross.atLeast.bind (name :: references)).toList

end FieldSchema.Rule
