import LocatedYaml.Text.Space

/-!
# Extent of plain scalars

The value of a plain scalar differs from its source only in white space. Its end is found by matching the visible
characters of the value against those of the source.
-/

namespace LocatedYaml.Extent

/-- The bytes of the text up to the last visible character that agrees with the visible characters `wanted`, all
before it agreeing too; `taken` bytes have been read, the first `matched` of them are part of the answer. -/
def matchedBytes (matched taken : Nat) : Text → Text → Nat
  | [], _ => matched
  | _ :: _, [] => matched
  | c :: cs, w :: ws =>
    let taken := taken + c.utf8Size
    if c = w then matchedBytes taken taken cs ws
    else if Text.isSpace c then matchedBytes matched taken cs (w :: ws)
    else matched

/-- The end of a plain scalar with the given value. -/
def plainEnd (source : Text) (start : Nat) (value : Text) : Nat :=
  start + matchedBytes 0 0 (source.restFrom start) value.visible

end LocatedYaml.Extent
