import LocatedYaml.Text.Printable

/-!
# Quoted texts

A text as messages show it: in double quotes, on one line, with every character that is not printable written as
an escape.
-/

namespace LocatedYaml.Text

/-- The escape `\u{…}` with the code point in lowercase hexadecimal digits. -/
def codeEscape (c : Char) : Text := ['\\', 'u', '{'] ++ Nat.toDigits 16 c.toNat ++ ['}']

/-- One character of a quoted text. -/
def quotedChar (c : Char) : Text :=
  match c with
  | '"' => ['\\', '"']
  | '\\' => ['\\', '\\']
  | '\n' => ['\\', 'n']
  | '\r' => ['\\', 'r']
  | '\t' => ['\\', 't']
  | '\x00' => ['\\', '0']
  | c => if isPrintable c then [c] else codeEscape c

/-- The text in double quotes, as messages show it. -/
def quoted (t : Text) : Text := ['"'] ++ t.flatMap quotedChar ++ ['"']

end LocatedYaml.Text
