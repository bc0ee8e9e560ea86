import LocatedYaml.Scalar.Numeral
import LocatedYaml.Token.Scanner

/-!
# Block scalars

A header line, and below it the lines of the text. The indentation is given in the header, or is that of the first
line that is not blank. Line breaks are read as line feeds.
-/

namespace LocatedYaml

/-- What happens to the line breaks at the end of a block scalar. -/
inductive Chomping where
  | strip
  | clip
  | keep
  deriving DecidableEq

namespace Cursor

/-- The number of characters that a window is filled with at the start of a line. -/
def windowSize : Nat := 16

/-- The cursor behind up to `n` spaces. -/
def skipSpaces (n : Nat) (c : Cursor) : Cursor := c.skip ((c.rest.take n).takeWhile (· = ' ')).length

/-- The cursor behind the spaces in front of column `indent`, the window being filled whenever it is used up. -/
def skipIndent (indent : Nat) (c : Cursor) : Cursor :=
  if indent < windowSize - 2 then skipSpaces (indent - c.column) (c.look windowSize)
  else (refill (c.size + 1) c).look 2
where
  refill : Nat → Cursor → Cursor
    | 0, c => c
    | fuel + 1, c =>
      let c := c.look windowSize
      let c := skipSpaces (min c.window (indent - c.column)) c
      if c.column == indent || (c.window ≠ 0 && c.char ≠ ' ') then c else refill fuel c

/-- The text up to the end of the line and the cursor there. Characters behind the window count by their bytes. -/
def takeLine (c : Cursor) : Text × Cursor :=
  let line := c.rest.takeWhile (!Token.isLineEnd ·)
  let seen := c.skip (min line.length c.window)
  if line.length < c.window then (line, seen)
  else
    let bytes := Text.byteLength (line.drop c.window)
    let ⟨index, number, column⟩ := seen.mark
    (line, { seen with
      rest := seen.rest.drop (line.length - c.window)
      mark := ⟨index + bytes, number, column + bytes⟩
      window := 1 })

end Cursor

namespace Scanner

/-- The indentation and the chomping that the header asks for, in either order; an indentation of 0 is none. -/
def blockHeader (start : Mark) : Scan (Nat × Chomping) := do
  let chomping? : Scan (Option Chomping) := do
    let c ← char
    if c == '+' then next; return some .keep
    else if c == '-' then next; return some .strip
    else return none
  let digit? : Scan Nat := do
    let c ← char
    if !Scalar.isDecimalDigit c then return 0
    if c == '0' then failAt start .blockIndentZero
    next
    return Scalar.digitValue c
  match ← chomping? with
  | some chomping => return (← digit?, chomping)
  | none =>
    let digit ← digit?
    if digit = 0 then return (0, .clip)
    return (digit, (← chomping?).getD .clip)

/-- Skips the indentation of the next line that is not empty, and counts the empty lines before it. -/
def skipBlockIndent (indent : Nat) : Nat → Scan Nat
  | 0 => return 0
  | fuel + 1 => do
    move (·.skipIndent indent)
    if Token.isBreak (← char) then
      next
      return (← skipBlockIndent indent fuel) + 1
    else return 0

/-- Skips the spaces in front of the first line that is not empty; counts the empty lines and finds the largest
column reached. -/
def findBlockIndent (deepest : Nat) : Nat → Scan (Nat × Nat)
  | 0 => return (0, deepest)
  | fuel + 1 => do
    move fun c => (c.skipWhile (· = ' ')).look 1
    let deepest := max deepest (← get).cursor.column
    if Token.isBreak (← char) then
      next
      let (breaks, deepest) ← findBlockIndent deepest fuel
      return (breaks + 1, deepest)
    else return (0, deepest)

/-- The lines of a block scalar from the cursor on. `broken` tells that a line came before, `breaks` counts the
empty lines since, and `blank` tells that the line before started with a blank. The answer is the text without the
breaks at its end, whether its last line has a break, and how many empty lines follow. -/
def blockLines (literal : Bool) (indent : Nat) (broken : Bool) (breaks : Nat) (blank : Bool) :
    Nat → Scan (Text × Bool × Nat)
  | 0 => return ([], broken, breaks)
  | fuel + 1 => do
    if indent = 0 then move (·.look 4)
    let c := (← get).cursor
    if c.column ≠ indent ∨ c.rest.isEmpty ∨ (indent = 0 ∧ c.isMarker '.') then return ([], broken, breaks)
    let startsBlank := Token.isBlank c.char
    let fold := !literal && broken && !blank && !startsBlank
    let gap :=
      if fold && breaks == 0 then [' ']
      else List.replicate (breaks + if broken && !fold then 1 else 0) '\n'
    let line ← read fun c => .ok c.takeLine
    if (← get).cursor.rest.isEmpty then return (gap ++ line, false, 0)
    next
    let breaks ← skipBlockIndent indent fuel
    let (text, broken, breaks) ← blockLines literal indent true breaks startsBlank fuel
    return (gap ++ line ++ text, broken, breaks)

/-- A block scalar. It is found at its first character of content, or at its header when there is none. -/
def readBlock (literal : Bool) : Scan Token := do
  let start ← mark
  next
  leaveDeepened
  let (digit, chomping) ← blockHeader start
  let _ ← skipToLineEnd true
  unless Token.isLineEnd (← char) do failAt start .blockHeaderEnd
  let headerBreak := Token.isBreak (← char)
  if headerBreak then next
  if (← char) == '\t' then failAt start .blockTab
  let s ← get
  let fuel := s.cursor.size + 1
  let (breaks, indent) ←
    if digit = 0 then do
      let (breaks, deepest) ← findBlockIndent 0 fuel
      pure (breaks, max deepest (s.indent + 1).toNat)
    else do
      let indent := (max s.indent 0).toNat + digit
      pure (← skipBlockIndent indent fuel, indent)
  let kind (text : Text) : TokenKind := .scalar (if literal then .literal else .folded) text
  let c := (← get).cursor
  if c.rest.isEmpty then
    let text := match chomping with
      | .strip => []
      | .clip => if headerBreak then ['\n'] else []
      | .keep => if headerBreak then List.replicate (max breaks 1) '\n' else []
    return ⟨kind text, start⟩
  failIf (c.column < indent && s.indent < c.column) .blockIndentation
  let (text, broken, breaks) ← blockLines literal indent false breaks false fuel
  let last := (← get).cursor
  let chomped :=
    (if broken then ['\n'] else []) ++
      if last.rest.isEmpty && max indent 1 ≤ last.column then ['\n'] else []
  return ⟨kind (match chomping with
    | .strip => text
    | .clip => text ++ chomped
    | .keep => text ++ chomped ++ List.replicate breaks '\n'), c.mark⟩

end Scanner

end LocatedYaml
