import LocatedYaml.Token.Character
import LocatedYaml.Token.Fault

/-!
# Cursors

A place in a text that is being read: what is left of the text, and the mark of its first character. A NUL ends
the text.

Reading looks ahead through a window of characters. Its width matters in one place only: the characters of a block
scalar that lie behind the window are counted by their bytes.
-/

namespace LocatedYaml

structure Cursor where
  rest : Text
  mark : Mark
  /-- How many characters of `rest` have been looked at. -/
  window : Nat
  /-- Nothing but blanks has been read since the start of the line. -/
  atLineStart : Bool
  /-- The number of characters of the whole text, which bounds all loops over it. -/
  size : Nat

namespace Cursor

/-- The start of a text. -/
def ofText (t : Text) : Cursor :=
  let rest := t.takeWhile (· ≠ Token.endMark)
  ⟨rest, ⟨0, 1, 0⟩, 0, true, rest.length⟩

/-- The character at the cursor. -/
def char (c : Cursor) : Char := c.rest.headD Token.endMark

/-- The character `n` places behind the cursor. -/
def charAt (c : Cursor) (n : Nat) : Char := c.rest.getD n Token.endMark

def column (c : Cursor) : Nat := c.mark.column

/-- The cursor with a window of at least `n` characters. -/
def look (c : Cursor) (n : Nat) : Cursor := { c with window := max c.window n }

/-- The cursor behind the next character; a carriage return and a line feed count as one line break. -/
def next (c : Cursor) : Cursor :=
  let ⟨index, line, column⟩ := c.mark
  match c.rest with
  | [] => c
  | '\r' :: '\n' :: rest =>
    { c with rest, mark := ⟨index + 2, line + 1, 0⟩, window := c.window - 2, atLineStart := true }
  | ch :: rest =>
    if Token.isBreak ch then
      { c with rest, mark := ⟨index + 1, line + 1, 0⟩, window := c.window - 1, atLineStart := true }
    else
      { c with
        rest
        mark := ⟨index + 1, line, column + 1⟩
        window := c.window - 1
        atLineStart := c.atLineStart && Token.isBlank ch }

/-- The cursor behind the next `n` characters. -/
def skip (n : Nat) (c : Cursor) : Cursor :=
  match n with
  | 0 => c
  | n + 1 => skip n c.next

/-- The characters of a class from the cursor on, none of them a line break, and the cursor behind them. -/
def takeWhile (p : Char → Bool) (c : Cursor) : Text × Cursor :=
  let taken := c.rest.takeWhile p
  (taken, c.skip taken.length)

def skipWhile (p : Char → Bool) (c : Cursor) : Cursor := (c.takeWhile p).2

/-- The cursor at the end of its line. -/
def skipLine (c : Cursor) : Cursor := c.skipWhile (!Token.isLineEnd ·)

/-- The cursor is at three of the given character, with a gap behind them, at the start of a line. -/
def isMarker (c : Cursor) (ch : Char) : Bool :=
  c.column == 0 && c.char == ch && c.charAt 1 == ch && c.charAt 2 == ch && Token.isGap (c.charAt 3)

/-- The cursor is at a marker of the start or the end of a document. -/
def isDocumentMarker (c : Cursor) : Bool := c.isMarker '-' || c.isMarker '.'

/-- What was skipped in front of the rest of a line. -/
structure Skipped where
  tab : Bool
  space : Bool

/-- The cursor behind blanks, without tabs if they are not wanted, and behind a comment that follows them. -/
def skipToLineEnd (tabs : Bool) (c : Cursor) : Except SyntaxError (Skipped × Cursor) :=
  let (blanks, c) := c.takeWhile fun ch => ch == ' ' || (tabs && ch == '\t')
  let skipped : Skipped := ⟨blanks.contains '\t', blanks.contains ' '⟩
  if c.char ≠ '#' then .ok (skipped, c)
  else if blanks = [] then .error (Fault.commentNotSeparated.located c.mark)
  else .ok (skipped, c.skipLine)

/-- The cursor behind spaces, line breaks and comments, and whether a space or a break, and a break, was there. -/
def skipSpacesAndBreaks (fuel : Nat) (c : Cursor) : (Bool × Bool) × Cursor :=
  match fuel with
  | 0 => ((false, false), c)
  | fuel + 1 =>
    if c.char == ' ' then
      let ((_, broken), c) := skipSpacesAndBreaks fuel c.next
      ((true, broken), c)
    else if Token.isBreak c.char then
      let (_, c) := skipSpacesAndBreaks fuel c.next
      ((true, true), c)
    else if c.char == '#' then skipSpacesAndBreaks fuel c.skipLine
    else ((false, false), c)

/-- The cursor at the next character that belongs to a token, and whether a line break was skipped. Inside a block,
whose indentation is given, a tab cannot indent anything. -/
def skipToToken (block : Option Int) (fuel : Nat) (c : Cursor) : Except SyntaxError (Bool × Cursor) :=
  match fuel with
  | 0 => .ok (false, c)
  | fuel + 1 =>
    if c.char == '\t' && c.atLineStart && block.any (fun indent => (c.column : Int) < indent) && indentsContent c then
      .error (Fault.tabIndentation.located (c.skipWhile Token.isBlank).mark)
    else if Token.isBlank c.char then skipToToken block fuel c.next
    else if Token.isBreak c.char then (skipToToken block fuel c.next).map fun (_, c) => (true, c)
    else if c.char == '#' then skipToToken block fuel c.skipLine
    else .ok (false, c)
where
  /-- Something other than a comment follows the blanks on the line. -/
  indentsContent (c : Cursor) : Bool :=
    let ch := (c.skipWhile Token.isBlank).char
    !Token.isLineEnd ch && ch != '#'

end Cursor

end LocatedYaml
