import LocatedYaml.Scalar.Numeral

/-!
# Timestamps

The timestamps of YAML 1.1: a date, or a date and a time with an optional fraction and an optional time zone.
Each reader drops what it reads from the front of a text.
-/

namespace LocatedYaml.Scalar.Timestamp

/-- Exactly `n` digits. -/
def digits : Nat → Text → Option Text
  | 0, t => some t
  | _ + 1, [] => none
  | n + 1, c :: t => if isDecimalDigit c then digits n t else none

/-- One or two digits. -/
def oneOrTwoDigits (t : Text) : Option Text :=
  match digits 2 t with
  | some t => some t
  | none => digits 1 t

/-- One given character. -/
def char (c : Char) : Text → Option Text
  | [] => none
  | d :: t => if d = c then some t else none

def isBlank (c : Char) : Bool := c == ' ' || c == '\t'

/-- A date with two digits for month and day. -/
def isDate (t : Text) : Bool :=
  (digits 4 t >>= char '-' >>= digits 2 >>= char '-' >>= digits 2) = some []

/-- What separates the date from the time: a letter `T`, or blanks. -/
def separator : Text → Option Text
  | [] => none
  | c :: t =>
    if c = 'T' ∨ c = 't' then some t
    else if isBlank c then some (t.dropWhile isBlank)
    else none

/-- A fraction of a second, which may be missing. -/
def fraction : Text → Text
  | '.' :: t => t.dropWhile isDecimalDigit
  | t => t

/-- The offset of a time zone behind its sign: hours, and minutes that may be missing. -/
def isZoneOffset (t : Text) : Bool :=
  match oneOrTwoDigits t with
  | some [] => true
  | some (c :: t) => c = ':' && digits 2 t = some []
  | none => false

/-- A time zone, which may be missing. -/
def isZone (t : Text) : Bool :=
  t.isEmpty ||
    match t.dropWhile isBlank with
    | ['Z'] => true
    | '+' :: t => isZoneOffset t
    | '-' :: t => isZoneOffset t
    | _ => false

/-- A date and a time. -/
def isDateTime (t : Text) : Bool :=
  match digits 4 t >>= char '-' >>= oneOrTwoDigits >>= char '-' >>= oneOrTwoDigits >>= separator >>=
      oneOrTwoDigits >>= char ':' >>= digits 2 >>= char ':' >>= digits 2 with
  | some t => isZone (fraction t)
  | none => false

/-- The text is a timestamp. -/
def isTimestamp (t : Text) : Bool := isDate t || isDateTime t

end LocatedYaml.Scalar.Timestamp
