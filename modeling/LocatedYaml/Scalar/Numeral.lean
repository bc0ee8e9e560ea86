import LocatedYaml.Scalar.Basic

/-!
# Integer numerals

An integer spelling is a sign, a radix and digits; underscores between the digits do not count. `Numeral.value?`
is what it stands for: an integer in the range of 64 bits, and a float beyond it.
-/

namespace LocatedYaml.Scalar

def isDecimalDigit (c : Char) : Bool := '0' ≤ c && c ≤ '9'

def isOctalDigit (c : Char) : Bool := '0' ≤ c && c ≤ '7'

def isBinaryDigit (c : Char) : Bool := c == '0' || c == '1'

def isHexDigit (c : Char) : Bool := isDecimalDigit c || ('a' ≤ c && c ≤ 'f') || ('A' ≤ c && c ≤ 'F')

/-- A digit of one of the radices up to 16 as a number. -/
def digitValue (c : Char) : Nat :=
  if c ≤ '9' then c.toNat - '0'.toNat
  else if c ≤ 'F' then c.toNat - 'A'.toNat + 10
  else c.toNat - 'a'.toNat + 10

/-- The number that a row of digits denotes. -/
def digitsValue (radix : Nat) (digits : Text) : Nat :=
  digits.foldl (fun n c => n * radix + digitValue c) 0

def withoutUnderscores (t : Text) : Text := t.filter (· ≠ '_')

/-- The smallest integer value, the negative of `2 ^ 63`. -/
def minInt : Int := -9223372036854775808

/-- The largest integer value. -/
def maxInt : Int := 9223372036854775807

/-- The sign in front of a number, which may be missing, and the rest. -/
def splitSign : Text → Bool × Text
  | '-' :: body => (true, body)
  | '+' :: body => (false, body)
  | body => (false, body)

/-- An integer spelling, taken apart. -/
structure Numeral where
  negative : Bool
  radix : Nat
  digits : Text
  deriving DecidableEq, Repr

namespace Numeral

/-- An integer that fits 128 bits is rounded once; a longer row of digits is rounded after every digit. -/
def toBinary64 (numeral : Numeral) : Binary64 :=
  let digits := withoutUnderscores numeral.digits
  let magnitude := digitsValue numeral.radix digits
  if magnitude < Nat.pow 2 127 then .ofInt (if numeral.negative then -magnitude else magnitude)
  else
    let sum := digits.foldl (fun sum c => sum * .ofInt numeral.radix + .ofInt (digitValue c)) Binary64.zero
    if numeral.negative then -sum else sum

/-- The value of the numeral, if it has a digit. -/
def value? (numeral : Numeral) : Option Value :=
  let digits := withoutUnderscores numeral.digits
  if digits = [] then none
  else
    let magnitude := digitsValue numeral.radix digits
    let n : Int := if numeral.negative then -magnitude else magnitude
    if minInt ≤ n ∧ n ≤ maxInt then some (.int n) else some (.float numeral.toBinary64)

/-- A row of one or more characters of a class. -/
def isRow (isDigit : Char → Bool) (t : Text) : Bool := !t.isEmpty && t.all isDigit

def orUnderscore (isDigit : Char → Bool) (c : Char) : Bool := isDigit c || c == '_'

/-- The integer spellings of YAML 1.2: decimal with an optional sign, `0o` octal, `0x` hexadecimal. -/
def read1_2? (t : Text) : Option Numeral :=
  let (negative, body) := splitSign t
  if isRow isDecimalDigit body then some ⟨negative, 10, body⟩
  else
    match t with
    | '0' :: 'o' :: digits => if isRow isOctalDigit digits then some ⟨false, 8, digits⟩ else none
    | '0' :: 'x' :: digits => if isRow isHexDigit digits then some ⟨false, 16, digits⟩ else none
    | _ => none

/-- The integer spellings of YAML 1.1 without colons, all with an optional sign: `0b` binary, `0x` hexadecimal,
octal with a leading `0`, decimal without one; underscores may stand behind the first digit or the radix mark. -/
def read1_1? (t : Text) : Option Numeral :=
  let (negative, body) := splitSign t
  match body with
  | ['0'] => some ⟨negative, 10, ['0']⟩
  | '0' :: 'b' :: digits => if isRow (orUnderscore isBinaryDigit) digits then some ⟨negative, 2, digits⟩ else none
  | '0' :: 'x' :: digits => if isRow (orUnderscore isHexDigit) digits then some ⟨negative, 16, digits⟩ else none
  | '0' :: digits => if isRow (orUnderscore isOctalDigit) digits then some ⟨negative, 8, digits⟩ else none
  | first :: rest =>
    if isDecimalDigit first ∧ rest.all (orUnderscore isDecimalDigit) then some ⟨negative, 10, body⟩ else none
  | [] => none

end Numeral

end LocatedYaml.Scalar
