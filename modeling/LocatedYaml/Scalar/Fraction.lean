import LocatedYaml.Binary64.Decimal
import LocatedYaml.Scalar.Sexagesimal

/-!
# Fractional numbers

Spellings with a decimal point or an exponent, and the words for infinity and NaN.
-/

namespace LocatedYaml.Scalar

/-- An unsigned number with a point or an exponent, taken apart. -/
structure Fraction where
  whole : Text
  /-- What stands behind the point, if there is one. -/
  fraction : Option Text
  /-- The sign and the digits behind the `e`, if there is one. -/
  exponent : Option (Bool × Text)
  deriving DecidableEq, Repr

namespace Fraction

/-- An exponent, which ends the text. -/
def readExponent? (t : Text) : Option (Option (Bool × Text)) :=
  match t with
  | [] => some none
  | e :: t =>
    let (negative, digits) := splitSign t
    if (e = 'e' ∨ e = 'E') ∧ Numeral.isRow isDecimalDigit digits then some (some (negative, digits)) else none

/-- The parts of a number whose rows are made of the given class of characters. -/
def read? (isDigit : Char → Bool) (body : Text) : Option Fraction :=
  let whole := body.takeWhile isDigit
  match body.dropWhile isDigit with
  | '.' :: t => (readExponent? (t.dropWhile isDigit)).map fun e => ⟨whole, some (t.takeWhile isDigit), e⟩
  | t => (readExponent? t).map fun e => ⟨whole, none, e⟩

/-- The fractions of YAML 1.2 have a digit before the point, or one right behind it. -/
def read1_2? (body : Text) : Option Fraction :=
  (read? isDecimalDigit body).filter fun f => f.whole ≠ [] || f.fraction.any (· ≠ [])

/-- The fractions of YAML 1.1 have a point and a digit somewhere, underscores among the digits but not in front of
the first one. -/
def read1_1? (body : Text) : Option Fraction :=
  (read? (Numeral.orUnderscore isDecimalDigit) body).filter fun f =>
    f.fraction.isSome && f.whole.head? ≠ some '_' && body.any isDecimalDigit

/-- The decimal that the parts denote. -/
def toDecimal (f : Fraction) : Decimal :=
  let fraction := withoutUnderscores (f.fraction.getD [])
  let exponent : Int :=
    match f.exponent with
    | none => 0
    | some (negative, digits) => if negative then -digitsValue 10 digits else digitsValue 10 digits
  ⟨digitsValue 10 (withoutUnderscores f.whole ++ fraction), exponent - fraction.length⟩

end Fraction

namespace Sexagesimal

/-- The number that a sexagesimal number with a point denotes: its groups but the last one in minutes, times 60,
plus the last group with its fraction, rounded at each step. -/
def floatValue? (groups : List Text) (fraction : Text) : Option Binary64 :=
  (groupsValue? groups.dropLast).map fun minutes =>
    let seconds : Fraction := ⟨groups.getLast?.getD [], some fraction, none⟩
    .ofInt minutes * .ofInt 60 + seconds.toDecimal.toBinary64 false

end Sexagesimal

/-- The words for infinity, behind a sign. -/
def infinityWords : List Text := [".inf".toList, ".Inf".toList, ".INF".toList]

/-- The words for NaN. -/
def nanWords : List Text := [".nan".toList, ".NaN".toList, ".NAN".toList]

end LocatedYaml.Scalar
