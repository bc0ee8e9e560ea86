import LocatedYaml.Json.Basic

/-!
# JSON text

Compact text has no white space. Pretty text puts every item and member on a line of its own, two spaces deeper
than its container; empty containers stay on one line.
-/

namespace LocatedYaml.Json

/-- A character inside a JSON string: only quotes, backslashes and controls below U+0020 are escaped. -/
def stringChar (c : Char) : Text :=
  match c with
  | '"' => ['\\', '"']
  | '\\' => ['\\', '\\']
  | '\x08' => ['\\', 'b']
  | '\x0c' => ['\\', 'f']
  | '\n' => ['\\', 'n']
  | '\r' => ['\\', 'r']
  | '\t' => ['\\', 't']
  | c =>
    if c.toNat < 0x20 then
      ['\\', 'u', '0', '0', if c.toNat < 0x10 then '0' else '1'] ++ Nat.toDigits 16 (c.toNat % 16)
    else [c]

/-- A text as a JSON string. -/
def stringText (t : Text) : Text := ['"'] ++ t.flatMap stringChar ++ ['"']

/-- Where the items of a container stand: on one line, or each on its own line at this depth. -/
inductive Layout where
  | compact
  | pretty (depth : Nat)

namespace Layout

/-- The layout of what stands inside a container. -/
def deeper : Layout → Layout
  | .compact => .compact
  | .pretty depth => .pretty (depth + 1)

/-- What stands in front of an item, and in front of the closing bracket. -/
def lineStart : Layout → Text
  | .compact => []
  | .pretty depth => '\n' :: List.replicate (2 * depth) ' '

/-- What stands between a name and its value. -/
def colon : Layout → Text
  | .compact => [':']
  | .pretty _ => [':', ' ']

end Layout

/-- A container: its items, if there are any, between brackets. -/
def bracketed (layout : Layout) (opening closing : Char) (items : List Text) : Text :=
  match items with
  | [] => [opening, closing]
  | item :: items =>
    opening :: layout.deeper.lineStart ++ item ++
      items.flatMap (fun item => ',' :: layout.deeper.lineStart ++ item) ++ layout.lineStart ++ [closing]

mutual

/-- The text of a value whose container has the given layout. -/
def text (layout : Layout) : Json → Text
  | .null => ['n', 'u', 'l', 'l']
  | .bool true => ['t', 'r', 'u', 'e']
  | .bool false => ['f', 'a', 'l', 's', 'e']
  | .number numeral => numeral
  | .string value => stringText value
  | .array items => bracketed layout '[' ']' (itemTexts layout.deeper items)
  | .object members => bracketed layout '{' '}' (memberTexts layout.deeper members)

def itemTexts (layout : Layout) : List Json → List Text
  | [] => []
  | item :: items => text layout item :: itemTexts layout items

def memberTexts (layout : Layout) : List (Text × Json) → List Text
  | [] => []
  | (name, value) :: members =>
    (stringText name ++ layout.colon ++ text layout value) :: memberTexts layout members

end

/-- The value on a single line. -/
def compact (j : Json) : Text := text .compact j

/-- The value over several lines. -/
def pretty (j : Json) : Text := text (.pretty 0) j

end LocatedYaml.Json
