import LocatedYaml.Json.Basic
import LocatedYaml.Scalar.Numeral

/-!
# Reading JSON text

Readers that take one piece of JSON from the front of a text and give what is left. Strings are read as rows of
UTF-16 code units and characters, so that a string whose content nobody looks at may hold unpaired surrogates;
`joinUnits?` makes a text of the units and refuses those.
-/

namespace LocatedYaml.Json

def isSpace (c : Char) : Bool := c == ' ' || c == '\n' || c == '\r' || c == '\t'

def skipSpace (t : Text) : Text := t.dropWhile isSpace

/-- The number written with hexadecimal digits only. -/
def hexValue? (digits : Text) : Option Nat :=
  if digits.all Scalar.isHexDigit then some (Scalar.digitsValue 16 digits) else none

/-- The character that a backslash in front of `c` writes. -/
def simpleEscape? (c : Char) : Option Char :=
  match c with
  | '"' => some '"'
  | '\\' => some '\\'
  | '/' => some '/'
  | 'b' => some '\x08'
  | 'f' => some '\x0c'
  | 'n' => some '\n'
  | 'r' => some '\r'
  | 't' => some '\t'
  | _ => none

/-- The content of a string behind its opening quote, and what follows its closing quote. -/
def stringUnits? : Text → Option (List Nat × Text)
  | [] => none
  | '"' :: t => some ([], t)
  | '\\' :: 'u' :: a :: b :: c :: d :: t => do
    let unit ← hexValue? [a, b, c, d]
    let (units, t) ← stringUnits? t
    some (unit :: units, t)
  | '\\' :: e :: t => do
    let c ← simpleEscape? e
    let (units, t) ← stringUnits? t
    some (c.toNat :: units, t)
  | c :: t =>
    if c.toNat < 0x20 then none
    else do
      let (units, t) ← stringUnits? t
      some (c.toNat :: units, t)

def isLeading (unit : Nat) : Bool := 0xD800 ≤ unit && unit ≤ 0xDBFF

def isTrailing (unit : Nat) : Bool := 0xDC00 ≤ unit && unit ≤ 0xDFFF

/-- The text of a row of units; surrogates have to come in pairs. -/
def joinUnits? : List Nat → Option Text
  | [] => some []
  | [unit] => if isLeading unit || isTrailing unit then none else some [Char.ofNat unit]
  | unit :: next :: units =>
    if isLeading unit then
      if isTrailing next then
        (joinUnits? units).map (Char.ofNat (0x10000 + (unit - 0xD800) * 0x400 + (next - 0xDC00)) :: ·)
      else none
    else if isTrailing unit then none
    else (joinUnits? (next :: units)).map (Char.ofNat unit :: ·)

/-- A string with its quotes, and what follows. -/
def readString? : Text → Option (Text × Text)
  | '"' :: t => do
    let (units, t) ← stringUnits? t
    let value ← joinUnits? units
    some (value, t)
  | _ => none

/-- What follows one or more digits. -/
def skipDigits? : Text → Option Text
  | c :: t => if Scalar.isDecimalDigit c then some (t.dropWhile Scalar.isDecimalDigit) else none
  | [] => none

/-- What follows the fraction of a number, which may be missing. -/
def skipFraction? : Text → Option Text
  | '.' :: t => skipDigits? t
  | t => some t

/-- What follows the exponent of a number, which may be missing. -/
def skipExponent? : Text → Option Text
  | c :: t =>
    if c = 'e' ∨ c = 'E' then
      match t with
      | '+' :: t => skipDigits? t
      | '-' :: t => skipDigits? t
      | t => skipDigits? t
    else some (c :: t)
  | [] => some []

/-- What follows an unsigned number; a leading zero stands alone. -/
def skipMagnitude? : Text → Option Text
  | '0' :: c :: t => if Scalar.isDecimalDigit c then none else skipFraction? (c :: t) >>= skipExponent?
  | t => skipDigits? t >>= skipFraction? >>= skipExponent?

/-- What follows a value that is not a container. -/
def skipPlain? : Text → Option Text
  | '"' :: t => (stringUnits? t).map Prod.snd
  | '-' :: t => skipMagnitude? t
  | 'n' :: 'u' :: 'l' :: 'l' :: t => some t
  | 't' :: 'r' :: 'u' :: 'e' :: t => some t
  | 'f' :: 'a' :: 'l' :: 's' :: 'e' :: t => some t
  | t => skipMagnitude? t

mutual

/-- What follows a value; `fuel` bounds the number of values and separators on the way. -/
def skipValue? : Nat → Text → Option Text
  | 0, _ => none
  | fuel + 1, t =>
    match skipSpace t with
    | '[' :: t =>
      match skipSpace t with
      | ']' :: t => some t
      | t => skipItems? fuel t
    | '{' :: t =>
      match skipSpace t with
      | '}' :: t => some t
      | t => skipMembers? fuel t
    | t => skipPlain? t

/-- What follows the items of an array and its closing bracket. -/
def skipItems? : Nat → Text → Option Text
  | 0, _ => none
  | fuel + 1, t =>
    match (skipValue? fuel t).map skipSpace with
    | some (',' :: t) => skipItems? fuel t
    | some (']' :: t) => some t
    | _ => none

/-- What follows the members of an object and its closing bracket. -/
def skipMembers? : Nat → Text → Option Text
  | 0, _ => none
  | fuel + 1, t =>
    match skipSpace t with
    | '"' :: t =>
      match (stringUnits? t).map fun (_, t) => skipSpace t with
      | some (':' :: t) =>
        match (skipValue? fuel t).map skipSpace with
        | some (',' :: t) => skipMembers? fuel t
        | some ('}' :: t) => some t
        | _ => none
      | _ => none
    | _ => none

end

/-- What follows a value of any kind, whatever it holds. Each step reads a character, or one more is left. -/
def skipAny? (t : Text) : Option Text := skipValue? (2 * t.length + 2) t

end LocatedYaml.Json
