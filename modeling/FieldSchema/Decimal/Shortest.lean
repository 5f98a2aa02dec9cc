/-! The shortest decimal of a binary64 value: of all decimals that round to the value, one with the
fewest digits, and of those the nearest. All comparisons are exact, in natural numbers. -/
namespace FieldSchema.Decimal

/-- The value `significand * 2 ^ exponent`, with a sign. -/
structure Binary where
  negative : Bool
  significand : Nat
  exponent : Int

/-- The leading bit of a significand, which the bits of a value leave out. -/
def implicitBit : Nat := 4503599627370496

/-- Reads the bits of a finite binary64 value. -/
def Binary.ofBits (bits : UInt64) : Binary :=
  let raw := bits.toNat
  let biased := raw / implicitBit % 2048
  let fraction := raw % implicitBit
  { negative := decide (2048 * implicitBit ≤ raw)
    significand := if biased = 0 then fraction else fraction + implicitBit
    exponent := (max biased 1 : Nat) - 1075 }

/-- The value `digits * 10 ^ exponent`. -/
structure Digits where
  digits : Nat
  exponent : Int

/-- The values that round to a binary64 value, as `low / scale` to `high / scale` around
`value / scale`, with or without their ends. -/
structure Interval where
  low : Nat
  value : Nat
  high : Nat
  scale : Nat
  closed : Bool

/-- Neighbours are half as far below a power of two; an even significand owns the ends. -/
def Binary.interval (b : Binary) : Interval :=
  let quarter := 4 * b.significand
  let below := if b.significand = implicitBit ∧ -1074 < b.exponent then 1 else 2
  let up := Nat.pow 2 (b.exponent - 2).toNat
  { low := (quarter - below) * up
    value := quarter * up
    high := (quarter + 2) * up
    scale := Nat.pow 2 (2 - b.exponent).toNat
    closed := b.significand % 2 == 0 }

/-- The same interval measured in units of `10 ^ exponent`. -/
def Interval.inUnits (i : Interval) (exponent : Int) : Interval :=
  let down := Nat.pow 10 (-exponent).toNat
  { i with
    low := i.low * down
    value := i.value * down
    high := i.high * down
    scale := i.scale * Nat.pow 10 exponent.toNat }

def Interval.holds (i : Interval) (n : Nat) : Bool :=
  if i.closed then decide (i.low ≤ n * i.scale ∧ n * i.scale ≤ i.high)
  else decide (i.low < n * i.scale ∧ n * i.scale < i.high)

/-- The nearest whole number of the interval, if it has one; a tie goes to the even one. -/
def Interval.nearest? (i : Interval) : Option Nat :=
  let under := i.value / i.scale
  let lowGap := i.value - under * i.scale
  let highGap := (under + 1) * i.scale - i.value
  match i.holds under, i.holds (under + 1) with
  | true, true =>
    some (if lowGap < highGap ∨ (lowGap = highGap ∧ under % 2 = 0) then under else under + 1)
  | true, false => some under
  | false, true => some (under + 1)
  | false, false => none

def digitCount (n : Nat) : Nat := (Nat.toDigits 10 n).length

/-- The exponent of the leading decimal digit of a positive ratio. -/
def leadingExponent (num den : Nat) : Int :=
  if den ≤ num then (digitCount (num / den) : Int) - 1
  else -(digitCount ((den + num - 1) / num - 1) : Int)

/-- Moves the zeros at the end of the digits into the exponent; `fuel` bounds their number. -/
def Digits.trim : (fuel : Nat) → Digits → Digits
  | 0, d => d
  | fuel + 1, d =>
    if d.digits % 10 = 0 then trim fuel ⟨d.digits / 10, d.exponent + 1⟩ else d

/-- Seventeen digits always suffice. -/
def Binary.shortest (b : Binary) : Digits :=
  if b.significand = 0 then ⟨0, 0⟩
  else
    let i := b.interval
    let lead := leadingExponent i.value i.scale
    let grid (more : Nat) : Option Digits :=
      let exponent := lead - more
      (i.inUnits exponent).nearest?.map fun n => Digits.trim 20 ⟨n, exponent⟩
    ((List.range 17).findSome? grid).getD ⟨i.value / i.scale, 0⟩

end FieldSchema.Decimal
