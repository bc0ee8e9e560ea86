import LocatedYaml.Scalar.Base64
import LocatedYaml.Scalar.Fraction
import LocatedYaml.Scalar.Timestamp
import LocatedYaml.Text.Space
import LocatedYaml.Version

/-!
# Scalar resolution

`resolvePlain` gives a plain scalar its value by its form alone; `resolve` also takes the style and an explicit
tag into account. An explicit tag of the core types has to agree with the text.
-/

namespace LocatedYaml.Scalar

/-- What the tags of the core types begin with. -/
def coreTagStart : Text := "tag:yaml.org,2002:".toList

/-- The full form of a tag: the handle `!!` stands for `coreTagStart`. -/
def fullTag (handle suffix : Text) : Text :=
  if handle = ['!', '!'] then coreTagStart ++ suffix else handle ++ suffix

/-! ### Implicit resolution -/

def nullWords : List Text := ["~".toList, "null".toList, "Null".toList, "NULL".toList]

/-- The words for true and false. -/
def trueWords : Version → List Text
  | .v1_1 =>
    ["y".toList, "Y".toList, "yes".toList, "Yes".toList, "YES".toList, "true".toList, "True".toList, "TRUE".toList,
      "on".toList, "On".toList, "ON".toList]
  | .v1_2 => ["true".toList, "True".toList, "TRUE".toList]

def falseWords : Version → List Text
  | .v1_1 =>
    ["n".toList, "N".toList, "no".toList, "No".toList, "NO".toList, "false".toList, "False".toList,
      "FALSE".toList, "off".toList, "Off".toList, "OFF".toList]
  | .v1_2 => ["false".toList, "False".toList, "FALSE".toList]

/-- The empty text and the words for null. -/
def isNull (t : Text) : Bool := t = [] || t ∈ nullWords

def bool? (version : Version) (t : Text) : Option Value :=
  if t ∈ trueWords version then some (.bool true)
  else if t ∈ falseWords version then some (.bool false)
  else none

/-- The value of an integer spelling; a sexagesimal one beyond the integers has none. -/
def int? (version : Version) (t : Text) : Option Value :=
  match version with
  | .v1_2 => Numeral.read1_2? t >>= Numeral.value?
  | .v1_1 =>
    match Numeral.read1_1? t with
    | some numeral => numeral.value?
    | none => do
      let (negative, body) := splitSign t
      let groups ← Sexagesimal.readInt? body
      let n ← Sexagesimal.groupsValue? groups
      some (.int (if negative then -n else n))

/-- The magnitude of a spelling with a point or an exponent. -/
def magnitude? (version : Version) (body : Text) : Option Binary64 :=
  match version with
  | .v1_2 => (Fraction.read1_2? body).map fun f => f.toDecimal.toBinary64 false
  | .v1_1 =>
    match Sexagesimal.readFloat? body with
    | some (groups, fraction) => Sexagesimal.floatValue? groups fraction
    | none => (Fraction.read1_1? body).map fun f => f.toDecimal.toBinary64 false

/-- The value of a spelling with a point or an exponent, or of a word for infinity or NaN. -/
def float? (version : Version) (t : Text) : Option Value :=
  let (negative, body) := splitSign t
  if body ∈ infinityWords then some (.float (.infinity negative))
  else if t ∈ nanWords then some (.float .nan)
  else (magnitude? version body).map fun x => .float (if negative then -x else x)

def timestamp? (version : Version) (t : Text) : Option Value :=
  if version = .v1_1 ∧ Timestamp.isTimestamp t then some (.timestamp t) else none

/-- The value of a plain scalar without a tag. -/
def resolvePlain (version : Version) (t : Text) : Value :=
  if isNull t then .null
  else
    (bool? version t <|> int? version t <|> float? version t <|> timestamp? version t).getD (.string t)

/-! ### Explicit tags -/

/-- The core types that a tag can ask for. -/
inductive CoreType where
  | str
  | null
  | bool
  | int
  | float
  | binary
  | timestamp
  deriving DecidableEq, Repr

/-- The core type that a full tag names under a version. -/
def CoreType.ofTag? (version : Version) (tag : Text) : Option CoreType :=
  (Text.dropStart? coreTagStart tag).bind fun name =>
    if name = "str".toList then some .str
    else if name = "null".toList then some .null
    else if name = "bool".toList then some .bool
    else if name = "int".toList then some .int
    else if name = "float".toList then some .float
    else if name = "binary".toList ∧ version = .v1_1 then some .binary
    else if name = "timestamp".toList ∧ version = .v1_1 then some .timestamp
    else none

/-- A value as a float, when it is a number. -/
def Value.widen : Value → Value
  | .int n => .float (.ofInt n)
  | value => value

/-- The value of a text under a core type, if the text agrees with the type. -/
def resolveAs (version : Version) (type : CoreType) (t : Text) : Option Value :=
  match type with
  | .str => some (.string t)
  | .null => if isNull t then some .null else none
  | .bool => bool? version t
  | .int => int? version t
  | .float => float? version t <|> (int? version t).map Value.widen
  | .binary => (Base64.decode? (Text.visible t)).map .binary
  | .timestamp => timestamp? version (Text.trim t)

/-- The value of a scalar; none when the text contradicts its tag. Other tags than those of the core types leave
the text as it is. -/
def resolve (version : Version) (style : Style) (tag : Option Text) (t : Text) : Option Value :=
  match tag with
  | none => some (if style = .plain then resolvePlain version t else .string t)
  | some tag =>
    match CoreType.ofTag? version tag with
    | some type => resolveAs version type t
    | none => some (.string t)

end LocatedYaml.Scalar
