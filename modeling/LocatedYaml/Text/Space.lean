import LocatedYaml.Text.Basic

/-!
# White space

The characters with the Unicode property White_Space, and trimming by them.
-/

namespace LocatedYaml.Text

/-- The Unicode property White_Space. -/
def isSpace (c : Char) : Bool :=
  let n := c.toNat
  (9 ≤ n && n ≤ 13) || n == 0x20 || n == 0x85 || n == 0xA0 || n == 0x1680 || (0x2000 ≤ n && n ≤ 0x200A) ||
    n == 0x2028 || n == 0x2029 || n == 0x202F || n == 0x205F || n == 0x3000

/-- Without the white space at the start. -/
def trimStart (t : Text) : Text := t.dropWhile isSpace

/-- Without the white space at the end. -/
def trimEnd (t : Text) : Text := (t.reverse.dropWhile isSpace).reverse

/-- Without the white space at both ends. -/
def trim (t : Text) : Text := trimEnd (trimStart t)

/-- White space only, or nothing. -/
def isBlank (t : Text) : Bool := t.all isSpace

/-- The characters that are not white space. -/
def visible (t : Text) : Text := t.filter (!isSpace ·)

/-- The first run of characters that are not white space, if there is one. -/
def firstWord? (t : Text) : Option Text :=
  match (trimStart t).takeWhile (!isSpace ·) with
  | [] => none
  | c :: cs => some (c :: cs)

end LocatedYaml.Text
