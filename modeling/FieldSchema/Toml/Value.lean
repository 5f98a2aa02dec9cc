import FieldSchema.Text.Digit

/-! TOML values. A table knows how it came to be, for that decides what may still be added to it. -/
namespace FieldSchema.Toml

inductive Origin where
  /-- Named by a header of its own. -/
  | header
  /-- Only passed through by a longer header. -/
  | passed
  /-- Made by a dotted key. -/
  | dotted
  | inline
  deriving DecidableEq

inductive Value where
  | string (s : String)
  | integer (n : Int)
  /-- Whether binary64 has a number for it, or it is named as one that is not finite. -/
  | float (isHeld : Bool)
  | boolean (b : Bool)
  | time
  | array (items : List Value)
  /-- The tables of a repeated header, last first. -/
  | tables (items : List (List (String × Value)))
  | table (entries : List (String × Value)) (origin : Origin)

abbrev Table := List (String × Value)

namespace Value

def string? : Value → Option String
  | .string s => some s
  | _ => none

mutual

/-- Whether all numbers in a value can be held: integers by 128 bits, other numbers by binary64. -/
def isHeld : Value → Bool
  | .integer n => Text.isWide n
  | .float isHeld => isHeld
  | .array items => areHeld items
  | .tables items => areTablesHeld items
  | .table entries _ => areEntriesHeld entries
  | _ => true

def areHeld : List Value → Bool
  | [] => true
  | item :: rest => isHeld item && areHeld rest

def areEntriesHeld : List (String × Value) → Bool
  | [] => true
  | (_, value) :: rest => isHeld value && areEntriesHeld rest

def areTablesHeld : List (List (String × Value)) → Bool
  | [] => true
  | entries :: rest => areEntriesHeld entries && areTablesHeld rest

end

/-- A whole number within a limit. -/
def natural? (limit : Nat) : Value → Option Nat
  | .integer n => if 0 ≤ n ∧ n < limit then some n.toNat else none
  | _ => none

end Value

end FieldSchema.Toml
