import LocatedYaml.Scalar.Numeral

/-!
# Sexagesimal numbers

YAML 1.1 reads `190:20:30` in base 60: groups between colons, all but the first from 0 to 59.
-/

namespace LocatedYaml.Scalar.Sexagesimal

/-- A group behind a colon: one digit, or two of which the first is at most 5. -/
def isMinor : Text → Bool
  | [d] => isDecimalDigit d
  | [d, e] => '0' ≤ d && d ≤ '5' && isDecimalDigit e
  | _ => false

/-- A first group: digits and underscores, led by a digit of the given class. -/
def isMajor (isLead : Char → Bool) : Text → Bool
  | [] => false
  | d :: ds => isLead d && ds.all (Numeral.orUnderscore isDecimalDigit)

/-- The groups of a sexagesimal number; there are two at least. -/
def groups? (isLead : Char → Bool) (t : Text) : Option (List Text) :=
  match t.splitOn ':' with
  | major :: minor :: minors =>
    if isMajor isLead major ∧ (minor :: minors).all isMinor then some (major :: minor :: minors) else none
  | _ => none

/-- The number that the groups denote. -/
def groupsValue (groups : List Text) : Nat :=
  groups.foldl (fun n group => n * 60 + digitsValue 10 (withoutUnderscores group)) 0

/-- The number that the groups denote, unless it lies beyond the integers. -/
def groupsValue? (groups : List Text) : Option Nat :=
  if (groupsValue groups : Int) ≤ maxInt then some (groupsValue groups) else none

/-- A sexagesimal integer without its sign; its first digit is not zero. -/
def readInt? (body : Text) : Option (List Text) :=
  groups? (fun c => isDecimalDigit c && c ≠ '0') body

/-- A sexagesimal number with a point in its last group: the groups, and what stands behind the point. -/
def readFloat? (body : Text) : Option (List Text × Text) :=
  match body.span (· ≠ '.') with
  | (whole, '.' :: fraction) =>
    if fraction.all (Numeral.orUnderscore isDecimalDigit) then
      (groups? isDecimalDigit whole).map fun groups => (groups, fraction)
    else none
  | _ => none

end LocatedYaml.Scalar.Sexagesimal
