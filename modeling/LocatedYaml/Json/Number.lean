import LocatedYaml.Binary64.Decimal
import LocatedYaml.Json.Basic

/-!
# Numerals of double-precision numbers

Integers that are exact in double precision are written without a fraction. Every other finite number is written
with the fewest digits that read back: positional from `10 ^ -5` up to `10 ^ 16`, else with a signed exponent.
Infinities and NaN have no numeral.
-/

namespace LocatedYaml.Json

/-- The largest magnitude up to which all integers are exact. -/
def maxSafeInteger : Nat := 9007199254740991

/-- Digits with a point behind the first one, or a single digit. -/
def scientificDigits : Text → Text
  | [] => []
  | [d] => [d]
  | d :: ds => d :: '.' :: ds

/-- A decimal laid out by the position of its first digit. -/
def decimalNumeral (d : Decimal) : Text :=
  let digits := Nat.toDigits 10 d.digits
  let order := d.scale + digits.length - 1
  if order < -5 ∨ 15 < order then
    scientificDigits digits ++ ['e', if order < 0 then '-' else '+'] ++ Nat.toDigits 10 order.natAbs
  else if order < 0 then
    ['0', '.'] ++ List.replicate (order.natAbs - 1) '0' ++ digits
  else if 0 ≤ d.scale then
    digits ++ List.replicate d.scale.toNat '0' ++ ['.', '0']
  else
    digits.take (order.toNat + 1) ++ ['.'] ++ digits.drop (order.toNat + 1)

/-- The JSON value of a double-precision number. -/
def ofBinary64 : Binary64 → Json
  | .nan => .null
  | .infinity _ => .null
  | .finite negative rank =>
    match (Binary64.finite negative rank).toInt? with
    | some n =>
      if n.natAbs ≤ maxSafeInteger then ofInt n
      else .number (signed negative (decimalNumeral (Binary64.shortest rank)))
    | none => .number (signed negative (decimalNumeral (Binary64.shortest rank)))
where
  signed (negative : Bool) (numeral : Text) : Text := if negative then '-' :: numeral else numeral

end LocatedYaml.Json
