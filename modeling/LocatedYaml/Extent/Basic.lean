import LocatedYaml.Extent.Block
import LocatedYaml.Extent.Plain
import LocatedYaml.Extent.Quoted
import LocatedYaml.Scalar.Basic

/-!
# Where nodes end

Events carry the place where a node starts; the end is read off the source. All offsets are byte offsets, and ends
are excluded.
-/

namespace LocatedYaml.Extent

/-- The end of a scalar that starts at `start`. -/
def scalarEnd (source : Text) (start : Nat) (style : Scalar.Style) (value : Text) : Nat :=
  match style with
  | .plain => plainEnd source start value
  | .singleQuoted => singleQuotedEnd source start
  | .doubleQuoted => doubleQuotedEnd source start
  | .literal | .folded => blockScalarEnd source start

/-- A character that ends the name of an alias. -/
def endsName (c : Char) : Bool :=
  Text.isSpace c || c == ',' || c == '[' || c == ']' || c == '{' || c == '}'

/-- The end of an alias, indicator and name, that starts at `start`. -/
def aliasEnd (source : Text) (start : Nat) : Nat :=
  match source.restFrom start with
  | [] => start
  | indicator :: rest => start + indicator.utf8Size + Text.byteLength (rest.takeWhile (!endsName ·))

/-- The end of a flow collection whose closing bracket was found at `close`, if it is there. -/
def flowEnd? (source : Text) (close : Nat) (bracket : Char) : Option Nat :=
  if (source.restFrom close).head? = some bracket then some (close + bracket.utf8Size) else none

end LocatedYaml.Extent
