import LocatedYaml.Scalar.Numeral
import LocatedYaml.Token.Gap
import LocatedYaml.Token.Scanner

/-!
# Quoted scalars

Words with gaps between them, up to the closing quote. In single quotes a doubled quote stands for a quote; in
double quotes a backslash starts an escape, and in front of a line break it joins the lines. All faults but those
of tabs and of what follows the closing quote are located at `start`, the opening quote.
-/

namespace LocatedYaml.Scanner

/-- The character that a backslash in front of `c` writes. -/
def simpleEscape? (c : Char) : Option Char :=
  match c with
  | '0' => some '\x00'
  | 'a' => some '\x07'
  | 'b' => some '\x08'
  | 't' => some '\t'
  | '\t' => some '\t'
  | 'n' => some '\n'
  | 'v' => some '\x0b'
  | 'f' => some '\x0c'
  | 'r' => some '\r'
  | 'e' => some '\x1b'
  | ' ' => some ' '
  | '"' => some '"'
  | '/' => some '/'
  | '\\' => some '\\'
  | 'N' => some '\u0085'
  | '_' => some '\u00a0'
  | 'L' => some '\u2028'
  | 'P' => some '\u2029'
  | _ => none

/-- The number of hexadecimal digits that follow an escape by code. -/
def codeLength? (c : Char) : Option Nat :=
  match c with
  | 'x' => some 2
  | 'u' => some 4
  | 'U' => some 8
  | _ => none

/-- An escape in double quotes. -/
def readEscape (start : Mark) : Scan Char := do
  let c ← charAt 1
  match simpleEscape? c, codeLength? c with
  | some written, _ =>
    move (·.skip 2)
    return written
  | none, none => failAt start .escapeUnknown
  | none, some count =>
    move (·.skip 2)
    let digits := (← get).cursor.rest.take count
    unless digits.length = count ∧ digits.all Scalar.isHexDigit do failAt start .escapeDigits
    let code := Scalar.digitsValue 16 digits
    unless code.isValidChar do failAt start .escapeCodePoint
    move (·.skip count)
    return Char.ofNat code

/-- The characters up to the next gap or the closing quote, and whether they end with an escaped line break. -/
def quotedWord (single : Bool) (start : Mark) : Nat → Scan (Text × Bool)
  | 0 => return ([], false)
  | fuel + 1 => do
    let c ← char
    if Token.isGap c then return ([], false)
    if single then
      if c == '\x27' then
        if (← charAt 1) == '\x27' then
          move (·.skip 2)
          return (← quotedWord single start fuel).map ('\x27' :: ·) id
        else return ([], false)
      else
        next
        return (← quotedWord single start fuel).map (c :: ·) id
    else if c == '"' then return ([], false)
    else if c == '\\' then
      if Token.isBreak (← charAt 1) then
        next
        next
        return ([], true)
      else
        let written ← readEscape start
        return (← quotedWord single start fuel).map (written :: ·) id
    else
      next
      return (← quotedWord single start fuel).map (c :: ·) id

/-- The blanks and line breaks up to the next word. -/
def quotedGap (gap : Token.Gap) : Nat → Scan Token.Gap
  | 0 => return gap
  | fuel + 1 => do
    let c ← char
    if Token.isBlank c then
      failIf (gap.newLine && c == '\t' && ((← get).cursor.column : Int) < (← get).indent) .quotedTab
      next
      quotedGap (gap.blank c) fuel
    else if Token.isBreak c then
      next
      quotedGap gap.lineBreak fuel
    else return gap

/-- The words and gaps up to the closing quote. -/
def quotedText (single : Bool) (start : Mark) : Nat → Scan Text
  | 0 => return []
  | fuel + 1 => do
    let s ← get
    if s.cursor.isDocumentMarker then failAt start .quotedDocumentMarker
    if s.cursor.rest.isEmpty then failAt start .quotedUnterminated
    if (s.cursor.column : Int) < s.indent then failAt start .quotedIndentation
    let (word, escaped) ← quotedWord single start (s.cursor.size + 1)
    if (← char) == (if single then '\x27' else '"') then return word
    let gap ← quotedGap { newLine := escaped } (s.cursor.size + 1)
    return word ++ gap.text ++ (← quotedText single start fuel)

/-- A quoted scalar. Only what can follow a value may follow it on its line. -/
def readQuoted (single : Bool) : Scan Token := do
  let start ← mark
  next
  let text ← quotedText single start ((← get).cursor.size + 1)
  next
  let _ ← skipToLineEnd true
  let c ← char
  let line := (← mark).line
  let flow ← inFlow
  let mayFollow := c == ':' && (flow || start.line == line) || flow && (c == ',' || c == ']' || c == '}')
  failIf (!mayFollow && !Token.isLineEnd c) .quotedTrailing
  return ⟨.scalar (if single then .singleQuoted else .doubleQuoted) text, start⟩

end LocatedYaml.Scanner
