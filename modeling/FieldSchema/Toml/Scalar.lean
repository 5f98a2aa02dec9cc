import FieldSchema.Calendar
import FieldSchema.Toml.Value

/-! TOML scalars that stand without quotes. Each is read from the whole of its text. -/
namespace FieldSchema.Toml

/-- Digits of a base, in groups that single underscores part. -/
def groupedDigits? (base : Nat) (cs : List Char) : Option (List Char) :=
  let groups := cs.splitOn '_'
  if groups.any List.isEmpty then none
  else (Text.inBase? base groups.flatten).map fun _ => groups.flatten

def sign : List Char → Bool × List Char
  | '-' :: rest => (true, rest)
  | '+' :: rest => (false, rest)
  | cs => (false, cs)

def leadsWithZero : List Char → Bool
  | '0' :: _ :: _ => true
  | _ => false

def based (base : Nat) (cs : List Char) : Option Int := do
  let digits ← groupedDigits? base cs
  return (← Text.inBase? base digits : Nat)

/-- Bases other than ten have no sign, and ten has no zeros in front. -/
def integer? (cs : List Char) : Option Int :=
  match cs with
  | '0' :: 'x' :: rest => based 16 rest
  | '0' :: 'o' :: rest => based 8 rest
  | '0' :: 'b' :: rest => based 2 rest
  | _ => do
    let (negative, cs) := sign cs
    let n ← based 10 cs
    if leadsWithZero cs then none
    return if negative then -n else n

/-- An exponent may have zeros in front. -/
def exponent? (cs : List Char) : Option Int := do
  let (negative, cs) := sign cs
  let n ← based 10 cs
  return if negative then -n else n

def isExponentMark (c : Char) : Bool := c = 'e' || c = 'E'

/-- Whether the number with these digits, scaled by a power of ten, is finite in binary64. -/
def isFinite (digits : List Char) (exponent : Int) : Bool :=
  let n := Text.decimal digits
  n = 0 || !(Float.ofScientific n (exponent < 0) (min exponent.natAbs (400 + digits.length))).isInf

/-- A number with a fraction, an exponent or both, or a name for what is no number. -/
def float? (cs : List Char) : Option Value :=
  let (_, cs) := sign cs
  if cs = "inf".toList || cs = "nan".toList then some (.float true)
  else
    let mantissa := cs.takeWhile (!isExponentMark ·)
    let exponent := match cs.dropWhile (!isExponentMark ·) with
      | [] => some 0
      | _ :: rest => exponent? rest
    let whole := mantissa.takeWhile (· ≠ '.')
    let fraction := match mantissa.dropWhile (· ≠ '.') with
      | [] => some []
      | _ :: rest => groupedDigits? 10 rest
    match groupedDigits? 10 whole, fraction, exponent with
    | some digits, some places, some e =>
      if !leadsWithZero whole && cs.any fun c => c = '.' || isExponentMark c then
        some (.float (isFinite (digits ++ places) (e - places.length)))
      else none
    | _, _, _ => none

def afterDate? (cs : List Char) : Option (List Char) := do
  let (year, cs) ← Calendar.exactly 4 cs
  let cs ← Calendar.symbol '-' cs
  let (month, cs) ← Calendar.exactly 2 cs
  let cs ← Calendar.symbol '-' cs
  let (day, cs) ← Calendar.exactly 2 cs
  if Calendar.isDay year month day then some cs else none

/-- Seconds may be left out, and so may their fraction. -/
def afterTime? (cs : List Char) : Option (List Char) := do
  let (hour, cs) ← Calendar.exactly 2 cs
  let cs ← Calendar.symbol ':' cs
  let (minute, cs) ← Calendar.exactly 2 cs
  match cs with
  | ':' :: rest => do
    let (second, cs) ← Calendar.exactly 2 rest
    let cs ← Calendar.fraction cs
    if Calendar.isTime hour minute second then some cs else none
  | _ => if Calendar.isTime hour minute 0 then some cs else none

/-- A date, a time, or a date and a time with or without a zone. -/
def isTime (cs : List Char) : Bool :=
  match afterDate? cs with
  | none => afterTime? cs = some []
  | some [] => true
  | some (separator :: rest) =>
    Calendar.isSeparator separator &&
      match afterTime? rest with
      | none => false
      | some [] => true
      | some rest => Calendar.zone rest = some []

def scalar? (cs : List Char) : Option Value :=
  if cs = "true".toList then some (.boolean true)
  else if cs = "false".toList then some (.boolean false)
  else
    match integer? cs, float? cs with
    | some n, _ => some (.integer n)
    | _, some value => some value
    | _, _ => if isTime cs then some .time else none

end FieldSchema.Toml
