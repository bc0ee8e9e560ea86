import LocatedYaml.Token.Gap
import LocatedYaml.Token.Scanner

/-!
# Plain scalars

Words with gaps between them, which no quote encloses. A plain scalar ends at a comment, at a `:` that a gap
follows, at the indicators of an enclosing flow collection, at the marker of a document, and in a block with the
first line that is not indented deeper than the block.
-/

namespace LocatedYaml.Scanner

/-- The character can be part of a plain scalar, when `following` is the one behind it. -/
def isPlain (inFlow : Bool) (c following : Char) : Bool :=
  !Token.isGap c && !(inFlow && Token.isFlow c) &&
    !(c == ':' && (Token.isGap following || (inFlow && Token.isFlow following)))

/-- The characters of the text up to the first that cannot be part of a plain scalar. -/
def plainWord (inFlow : Bool) : Text → Text
  | [] => []
  | c :: cs => if isPlain inFlow c (cs.headD Token.endMark) then c :: plainWord inFlow cs else []

/-- The blanks and line breaks up to the next word. A tab may stand in the indentation of a line only if nothing but
a comment follows; the break behind a comment counts as a first one. -/
def plainGap (indent : Int) (start : Mark) (gap : Token.Gap) : Nat → Scan Token.Gap
  | 0 => return gap
  | fuel + 1 => do
    let c ← char
    if Token.isBlank c then
      let s ← get
      if c == '\t' && s.cursor.atLineStart && (s.cursor.column : Int) < indent then
        let _ ← skipToLineEnd true
        unless Token.isLineEnd (← char) do failAt start .plainTab
        plainGap indent start { gap with newLine := (← get).cursor.atLineStart } fuel
      else
        next
        plainGap indent start (gap.blank c) fuel
    else if Token.isBreak c then
      next
      plainGap indent start gap.lineBreak fuel
    else return gap

/-- The words and gaps of a plain scalar; `gap` is what stands in front of the cursor. -/
def plainText (indent : Int) (start : Mark) (gap : Token.Gap) : Nat → Scan Text
  | 0 => return []
  | fuel + 1 => do
    let s ← get
    let flow := s.flowLevel ≠ 0
    let c := s.cursor.char
    if s.cursor.isDocumentMarker || c == '#' then return []
    failIf (flow && c == '-' && Token.isFlow (s.cursor.charAt 1)) .plainDash
    let word := plainWord flow s.cursor.rest
    move (·.skip word.length)
    let text := if word.isEmpty then [] else gap.text ++ word
    let c ← char
    unless Token.isBlank c || Token.isBreak c do return text
    let gap ← plainGap indent start (if word.isEmpty then gap else {}) (s.cursor.size + 1)
    if !flow && ((← get).cursor.column : Int) < indent then return text
    return text ++ (← plainText indent start gap fuel)

/-- A plain scalar. When it ends on a new line, a simple key may start there. -/
def readPlain : Scan Token := do
  leaveDeepened
  let start ← mark
  let indent := (← get).indent + 1
  if (← inFlow) && (start.column : Int) < indent then failAt start .plainIndentation
  let text ← plainText indent start {} ((← get).cursor.size + 1)
  if (← get).cursor.atLineStart then setKeyAllowed true
  return ⟨.scalar .plain text, start⟩

end LocatedYaml.Scanner
