import FieldSchema.Json.Value
import FieldSchema.Text.Digit

/-! Number literals. A whole number that fits keeps its digits; any other literal is scaled in
binary64: as many leading digits as fit 64 bits, times or over a power of ten. -/
namespace FieldSchema.Number

/-- A literal taken apart: `fraction` and `exponent` are absent where they are not written. -/
structure Literal where
  negative : Bool
  whole : List Char
  fraction : Option (List Char)
  exponent : Option (Bool × List Char)

namespace Literal

def limit : Nat := UInt64.size

/-- Appends digits while the result fits; the second part counts those that were left out. -/
def absorb : Nat → List Char → Nat × Nat
  | n, [] => (n, 0)
  | n, c :: rest =>
    if n * 10 + (c.toNat - 48) < limit then absorb (n * 10 + (c.toNat - 48)) rest
    else (n, (c :: rest).length)

def power (n : Nat) : Float := Float.ofScientific 1 false n

/-- `x * 10 ^ exponent`, if that is finite: one step over the largest power of ten, then one to the
rest of the exponent. -/
def scale (x : Float) (exponent : Int) : Option Float :=
  if x == 0 then some x
  else if 308 < exponent then none
  else if -308 ≤ exponent then
    let y := if 0 ≤ exponent then x * power exponent.toNat else x / power (-exponent).toNat
    if y.isInf then none else some y
  else
    let y := x / power 308
    let below := -(exponent + 308)
    some (if y == 0 then y
      else if below ≤ 308 then y / power below.toNat
      else y / power 308 / power (min (below - 308) 308).toNat)

def signed (negative : Bool) (x : Float) : Number := .float (if negative then -x else x).toBits

/-- The largest exponent that is read digit by digit. -/
def largestExponent : Nat := 2147483647

def scaled (l : Literal) : Option Number :=
  let (n, dropped) := absorb 0 l.whole
  let fraction := l.fraction.getD []
  let (n, left) := absorb n fraction
  let places : Int := dropped - (fraction.length - left : Nat)
  let x := (UInt64.ofNat n).toFloat
  match l.exponent with
  | none => (scale x places).map (signed l.negative)
  | some (down, digits) =>
    let e := Text.decimal digits
    if largestExponent < e then
      if n ≠ 0 ∧ !down then none else some (signed l.negative 0)
    else (scale x (places + if down then -(e : Int) else e)).map (signed l.negative)

/-- The number of a literal, unless it is too large for binary64. Minus zero is a binary64 value. -/
def number? (l : Literal) : Option Number :=
  match l.fraction, l.exponent with
  | none, none =>
    let n := Text.decimal l.whole
    if !l.negative && n < limit then some (.natural (UInt64.ofNat n))
    else if h : l.negative ∧ 1 ≤ n ∧ n - 1 < 9223372036854775808 then
      some (.negative ⟨n - 1, h.2.2⟩)
    else l.scaled
  | _, _ => l.scaled

end Literal

end FieldSchema.Number
