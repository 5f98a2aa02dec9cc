import FieldSchema.Text.Blank
import FieldSchema.Text.Digit

/-! Dates and date-times as texts. `isDate` reads a year, a month and a day between dashes,
`isDateTime` the profile of RFC 3339; neither allows anything after what it reads. -/
namespace FieldSchema.Calendar

open Text (isDigit decimal)

/-- The Gregorian rule, for years before the first one too. -/
def isLeap (year : Int) : Bool := year % 4 = 0 && (year % 100 ≠ 0 || year % 400 = 0)

def daysIn (year : Int) : Nat → Nat
  | 2 => if isLeap year then 29 else 28
  | 4 | 6 | 9 | 11 => 30
  | _ => 31

def earliestYear : Int := -262143

def latestYear : Int := 262142

def isDay (year : Int) (month day : Nat) : Bool :=
  earliestYear ≤ year && year ≤ latestYear && 1 ≤ month && month ≤ 12 && 1 ≤ day &&
    day ≤ daysIn year month

/-- One digit or more, at most `width`. -/
def upTo (width : Nat) (cs : List Char) : Option (Nat × List Char) :=
  match (cs.take width).takeWhile isDigit with
  | [] => none
  | digits => some (decimal digits, cs.drop digits.length)

/-- Exactly `width` digits. -/
def exactly (width : Nat) (cs : List Char) : Option (Nat × List Char) :=
  if (cs.take width).length = width ∧ (cs.take width).all isDigit then
    some (decimal (cs.take width), cs.drop width)
  else none

def symbol (c : Char) : List Char → Option (List Char)
  | d :: rest => if c = d then some rest else none
  | [] => none

/-- A year of up to four digits, or of any length behind a sign. -/
def year : List Char → Option (Int × List Char)
  | '-' :: rest => (upTo rest.length rest).map fun (n, rest) => (-(n : Int), rest)
  | '+' :: rest => (upTo rest.length rest).map fun (n, rest) => ((n : Int), rest)
  | cs => (upTo 4 cs).map fun (n, rest) => ((n : Int), rest)

/-- Blanks may stand before each of the three numbers. -/
def isDate (s : String) : Bool :=
  (do
    let (year, cs) ← year (Text.trimLeft s.toList)
    let cs ← symbol '-' cs
    let (month, cs) ← upTo 2 (Text.trimLeft cs)
    let cs ← symbol '-' cs
    let (day, cs) ← upTo 2 (Text.trimLeft cs)
    return isDay year month day && cs.isEmpty).getD false

def isSeparator (c : Char) : Bool := c = 'T' || c = 't' || c = ' '

/-- The last second of a minute may be a leap second. -/
def isTime (hour minute second : Nat) : Bool := hour ≤ 23 && minute ≤ 59 && second ≤ 60

/-- Digits behind a point, as many as there are; no point is no fraction. -/
def fraction : List Char → Option (List Char)
  | '.' :: rest => (upTo rest.length rest).map Prod.snd
  | cs => some cs

/-- The true minus sign is as good as a dash. -/
def isSign (c : Char) : Bool := c = '+' || c = '-' || c = Char.ofNat 0x2212

/-- What is left behind a zone: a letter for none, or a signed distance of less than a day. -/
def zone : List Char → Option (List Char)
  | [] => none
  | c :: cs =>
    if c = 'Z' ∨ c = 'z' then some cs
    else if isSign c then do
      let (hours, cs) ← exactly 2 cs
      let cs ← symbol ':' cs
      let (minutes, cs) ← exactly 2 cs
      if hours ≤ 23 ∧ minutes ≤ 59 then some cs else none
    else none

def isDateTime (s : String) : Bool :=
  (do
    let (year, cs) ← exactly 4 s.toList
    let cs ← symbol '-' cs
    let (month, cs) ← exactly 2 cs
    let cs ← symbol '-' cs
    let (day, cs) ← exactly 2 cs
    let (separator, cs) ← cs.head?.map fun c => (c, cs.tail)
    let (hour, cs) ← exactly 2 cs
    let cs ← symbol ':' cs
    let (minute, cs) ← exactly 2 cs
    let cs ← symbol ':' cs
    let (second, cs) ← exactly 2 cs
    let cs ← fraction cs
    let cs ← zone cs
    return isDay year month day && isSeparator separator && isTime hour minute second &&
      cs.isEmpty).getD false

end FieldSchema.Calendar
