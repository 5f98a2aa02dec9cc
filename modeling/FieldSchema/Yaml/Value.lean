import FieldSchema.Json.Value
import FieldSchema.Text.Digit

/-! The JSON values that YAML scalars stand for. A plain scalar without a tag is a null, a boolean,
a number or else a string. -/
namespace FieldSchema.Yaml.Value

def isNull (s : String) : Bool := s = "null" || s = "Null" || s = "NULL" || s = "~"

def boolean? (s : String) : Option Bool :=
  if s = "true" || s = "True" || s = "TRUE" then some true
  else if s = "false" || s = "False" || s = "FALSE" then some false
  else none

def unsigned : List Char → List Char
  | '+' :: rest => rest
  | '-' :: rest => rest
  | cs => cs

/-- Zeros in front make a text of what else would be a number. -/
def hasLeadingZero (cs : List Char) : Bool :=
  match unsigned cs with
  | '0' :: rest => !rest.isEmpty && rest.all Text.isDigit
  | _ => false

def digitsIn? (base : Nat) (cs : List Char) : Option Nat :=
  if cs.isEmpty then none else Text.inBase? base cs

/-- Digits with the mark of their base. -/
def magnitude? (cs : List Char) : Option Nat :=
  match cs with
  | '0' :: 'x' :: rest => digitsIn? 16 rest
  | '0' :: 'o' :: rest => digitsIn? 8 rest
  | '0' :: 'b' :: rest => digitsIn? 2 rest
  | _ => digitsIn? 10 cs

/-- What is longer than 128 bits is no integer. -/
def integer? (s : String) : Option Int :=
  if hasLeadingZero s.toList then none
  else
    let found : Option Int := match s.toList with
      | '-' :: rest => (magnitude? rest).map fun n => -(n : Int)
      | cs => (magnitude? (match cs with | '+' :: rest => rest | cs => cs)).map fun n => (n : Int)
    found.filter Text.isWide

/-- A whole number, if JSON can hold it. -/
def ofInteger? (n : Int) : Option Number :=
  if 0 ≤ n then
    if n.toNat < UInt64.size then some (.natural (UInt64.ofNat n.toNat)) else none
  else if h : (-n - 1).toNat < 9223372036854775808 then some (.negative ⟨(-n - 1).toNat, h⟩)
  else none

/-- The binary64 value nearest to digits scaled by a power of ten. -/
def scaled (digits : List Char) (exponent : Int) : Float :=
  Float.ofScientific (Text.decimal digits) (exponent < 0)
    (min exponent.natAbs (400 + digits.length))

def exponent? : List Char → Option Int
  | [] => some 0
  | _ :: '-' :: rest => if isDigits rest then some (-(Text.decimal rest : Int)) else none
  | _ :: '+' :: rest => if isDigits rest then some (Text.decimal rest) else none
  | _ :: rest => if isDigits rest then some (Text.decimal rest) else none
where
  isDigits (cs : List Char) : Bool := !cs.isEmpty && cs.all Text.isDigit

def isExponentMark (c : Char) : Bool := c = 'e' || c = 'E'

/-- Digits on at least one side of a point, or no point. -/
def magnitudeFloat? (cs : List Char) : Option Float := do
  let mantissa := cs.takeWhile (!isExponentMark ·)
  let exponent ← exponent? (cs.dropWhile (!isExponentMark ·))
  let whole := mantissa.takeWhile (· ≠ '.')
  let places := (mantissa.dropWhile (· ≠ '.')).drop 1
  let digits := whole ++ places
  if digits.isEmpty || !digits.all Text.isDigit then none
  let x := scaled digits (exponent - places.length)
  if x.isInf then none else some x

def isSigned : List Char → Bool
  | '+' :: _ => true
  | '-' :: _ => true
  | _ => false

def float? (s : String) : Option Float :=
  match s.toList with
  | '+' :: rest => if isSigned rest then none else magnitudeFloat? rest
  | '-' :: rest => (magnitudeFloat? rest).map (-·)
  | cs => magnitudeFloat? cs

/-- The names of what is no finite number, which JSON writes as null. -/
def isUnbounded (s : String) : Bool :=
  [".inf", ".Inf", ".INF", "+.inf", "+.Inf", "+.INF", "-.inf", "-.Inf", "-.INF", ".nan", ".NaN",
    ".NAN"].contains s

def ofFloat? (s : String) : Option Json :=
  if isUnbounded s then some .null else (float? s).map fun x => .number (.float x.toBits)

/-- The value of a plain scalar; none if it is a whole number that JSON cannot hold. -/
def plain? (s : String) : Option Json :=
  if s.isEmpty || isNull s then some .null
  else
    match boolean? s, integer? s with
    | some b, _ => some (.bool b)
    | _, some n => (ofInteger? n).map .number
    | _, none => some (if hasLeadingZero s.toList then .string s else (ofFloat? s).getD (.string s))

def untagged? (s : String) (isPlain : Bool) : Option Json :=
  if isPlain then plain? s else some (.string s)

/-- Whether a tag belongs to its document; no JSON value has one. Octets that are no text are as
good as no tag. -/
def isForeign (tag : String) : Bool :=
  tag.startsWith "!" &&
    (String.fromUTF8? ⟨(tag.toList.map fun c => UInt8.ofNat c.toNat).toArray⟩).isSome

/-- The value of a scalar. The tags of the language say what its text has to be, and any other tag
that it is a string. -/
def scalar? (tag : Option String) (s : String) (isPlain : Bool) : Option Json :=
  match tag with
  | none => untagged? s isPlain
  | some tag =>
    if isForeign tag then none
    else if tag.startsWith "!" then untagged? s isPlain
    else if tag = "tag:yaml.org,2002:null" then if isNull s then some .null else none
    else if tag = "tag:yaml.org,2002:bool" then (boolean? s).map .bool
    else if tag = "tag:yaml.org,2002:int" then ((integer? s).bind ofInteger?).map .number
    else if tag = "tag:yaml.org,2002:float" then ofFloat? s
    else some (.string s)

end FieldSchema.Yaml.Value
