import FieldSchema.Decimal.Shortest

/-! Written forms of a decimal: which exponents are written out in places, and with which marks. -/
namespace FieldSchema.Decimal

/-- Exponents of the leading digit from `least` to below `limit` are written in places. -/
structure Layout where
  least : Int
  limit : Int
  whole : String
  mark : String
  plus : String

/-- The digits with a point after the first `places`, which lie inside them. -/
def pointed (digits : List Char) (places : Nat) : String :=
  String.ofList (digits.take places ++ '.' :: digits.drop places)

def zeros (n : Nat) : String := String.ofList (List.replicate n '0')

namespace Layout

/-- In places: a point before, inside or after the digits. -/
def places (layout : Layout) (digits : List Char) (lead : Int) : String :=
  if lead < 0 then "0." ++ zeros (-lead - 1).toNat ++ String.ofList digits
  else if (digits.length : Int) ≤ lead + 1 then
    String.ofList digits ++ zeros (lead + 1 - digits.length).toNat ++ layout.whole
  else pointed digits (lead + 1).toNat

/-- One digit before the point, and an exponent. -/
def scientific (layout : Layout) (digits : List Char) (lead : Int) : String :=
  (if digits.length ≤ 1 then String.ofList digits else pointed digits 1) ++ layout.mark ++
    (if lead < 0 then "-" else layout.plus) ++ toString lead.natAbs

def magnitude (layout : Layout) (d : Digits) : String :=
  let digits := Nat.toDigits 10 d.digits
  let lead := (digits.length : Int) - 1 + d.exponent
  if d.digits = 0 then "0" ++ layout.whole
  else if layout.least ≤ lead ∧ lead < layout.limit then layout.places digits lead
  else layout.scientific digits lead

def text (layout : Layout) (b : Binary) : String :=
  (if b.negative then "-" else "") ++ layout.magnitude b.shortest

end Layout

end FieldSchema.Decimal
