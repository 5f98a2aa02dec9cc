import FieldSchema.Entries

/-! JSON values. An object is the list of its members in the order in which they were written, and
a number keeps how it was written. `Json.same` is equality of values: it ignores the order of
members and tells a whole number from a fractional one. -/
namespace FieldSchema

/-- A whole number of 64 bits, a negative whole number of 63 (given by its distance below `-1`), or
the bits of a finite binary64 value. -/
inductive Number where
  | natural (n : UInt64)
  | negative (below : Fin 9223372036854775808)
  | float (bits : UInt64)
  deriving DecidableEq

namespace Number

/-- The nearest binary64 value. -/
def toFloat : Number → Float
  | .natural n => n.toFloat
  | .negative below => -(UInt64.ofNat (below.val + 1)).toFloat
  | .float bits => Float.ofBits bits

/-- Both numbers are taken as binary64 values. -/
def atLeast (a b : Number) : Bool := decide (b.toFloat ≤ a.toFloat)

/-- Equality by kind and value; the two zeros of binary64 are one value. -/
def same : Number → Number → Bool
  | .float a, .float b => Float.ofBits a == Float.ofBits b
  | a, b => decide (a = b)

end Number

inductive Json where
  | null
  | bool (b : Bool)
  | number (n : Number)
  | string (s : String)
  | array (items : List Json)
  | object (members : List (String × Json))
  deriving Inhabited

abbrev Members := List (String × Json)

namespace Json

inductive Kind where
  | null | boolean | number | string | array | object
  deriving DecidableEq

def Kind.name : Kind → String
  | .null => "null"
  | .boolean => "boolean"
  | .number => "number"
  | .string => "string"
  | .array => "array"
  | .object => "object"

def kind : Json → Kind
  | .null => .null
  | .bool _ => .boolean
  | .number _ => .number
  | .string _ => .string
  | .array _ => .array
  | .object _ => .object

def isNull : Json → Bool
  | .null => true
  | _ => false

def bool? : Json → Option Bool
  | .bool b => some b
  | _ => none

def number? : Json → Option Number
  | .number n => some n
  | _ => none

/-- Only a literal without sign, fraction and exponent is a natural number. -/
def natural? : Json → Option UInt64
  | .number (.natural n) => some n
  | _ => none

def string? : Json → Option String
  | .string s => some s
  | _ => none

def array? : Json → Option (List Json)
  | .array items => some items
  | _ => none

def object? : Json → Option Members
  | .object members => some members
  | _ => none

/-- The strings of a list that holds nothing else. -/
def strings? : Json → Option (List String)
  | .array items => items.mapM string?
  | _ => none

def natural (n : UInt64) : Json := .number (.natural n)

def strings (ss : List String) : Json := .array (ss.map .string)

mutual

/-- Equality of values. -/
def same : Json → Json → Bool
  | .null, .null => true
  | .bool a, .bool b => a == b
  | .number a, .number b => a.same b
  | .string a, .string b => a == b
  | .array xs, .array ys => sameItems xs ys
  | .object ms, .object ns => ms.length == ns.length && sameMembers ms ns
  | _, _ => false

def sameItems : List Json → List Json → Bool
  | [], [] => true
  | x :: xs, y :: ys => same x y && sameItems xs ys
  | _, _ => false

/-- Every member on the left has an equal one on the right. -/
def sameMembers : Members → Members → Bool
  | [], _ => true
  | (key, value) :: rest, ns =>
    (match ns.lookup key with
      | some other => same value other
      | none => false) && sameMembers rest ns

end

mutual

/-- No object at any depth names a member twice. -/
def Distinct : Json → Prop
  | .array items => DistinctItems items
  | .object members => Entries.Distinct members ∧ DistinctMembers members
  | _ => True

def DistinctItems : List Json → Prop
  | [] => True
  | item :: rest => Distinct item ∧ DistinctItems rest

def DistinctMembers : Members → Prop
  | [] => True
  | (_, value) :: rest => Distinct value ∧ DistinctMembers rest

end

end Json

end FieldSchema
