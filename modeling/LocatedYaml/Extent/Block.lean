import LocatedYaml.Text.Space

/-!
# Extent of block scalars

A block scalar consists of a header, which starts with `|` or `>`, and the lines below it that are indented deeper
than the node that owns the header. Blank lines at its end belong to it only when the header says so with `+`.
-/

namespace LocatedYaml.Extent

/-! ### The header -/

/-- A digit or a sign behind the indicator. -/
def isMark (c : Char) : Bool := c.isDigit || c = '+' || c = '-'

/-- The text starts with a header: the indicator, digits and signs, and then a comment at most. -/
def isBlockHeader (t : Text) : Bool :=
  match t.firstLine with
  | [] => false
  | c :: cs =>
    (c = '|' || c = '>') &&
      match Text.trimStart (cs.dropWhile isMark) with
      | [] => true
      | d :: _ => d = '#'

/-- The offset of the first header in a line. A header stands at the start of the line or behind a blank. -/
def findHeader? (offset : Nat) (mayStart : Bool) : Text → Option Nat
  | [] => none
  | c :: cs =>
    if mayStart ∧ isBlockHeader (c :: cs) then some offset
    else findHeader? (offset + c.utf8Size) (c = ' ' || c = '\t') cs

/-- The offset of the header of a block scalar whose content was found at `marker`: the header is there itself, or
in the last line before it that is not blank. -/
def blockScalarStart (source : Text) (marker : Nat) : Nat :=
  if isBlockHeader (source.restFrom marker) then marker
  else
    let before := (source.uptoOrAll marker).trimEnd
    let line := before.lastLine
    (findHeader? (before.byteLength - line.byteLength) true line).getD marker

/-! ### The owner -/

/-- The column of the node that owns a header, given what stands before it on its line: entry and key indicators
in front of the node are passed over, and the last of them is the owner when nothing else stands there. -/
def ownerColumn (column : Nat) (indicator : Option Nat) : Text → Int
  | [] => match indicator with
    | some column => column
    | none => -1
  | c :: cs =>
    if c = ' ' then ownerColumn (column + 1) indicator cs
    else if (c = '-' ∨ c = '?') ∧ (cs = [] ∨ cs.head? = some ' ') then ownerColumn (column + 1) (some column) cs
    else column

/-- The column that the content of a block scalar has to exceed; a document on its header line has column `-1`. -/
def parentIndent (source : Text) (start : Nat) : Int :=
  let line := (source.uptoOrAll start).lastLine
  if (Text.dropStart? ['-', '-', '-'] line.trimStart).isSome then -1 else ownerColumn 0 none line

/-! ### The content -/

/-- The number of spaces in front of a line. -/
def indentOf (line : Text) : Nat := (line.takeWhile (· = ' ')).length

/-- The line is indented deeply enough, for an indentation that earlier lines may have set. -/
def fits (parent : Int) (indent : Option Nat) (line : Text) : Bool :=
  match indent with
  | some required => required ≤ indentOf line
  | none => parent < indentOf line

/-- The bytes of the lines that belong to the scalar; `taken` bytes have been read, the first `done` of them are
part of the answer. -/
def contentBytes (keep : Bool) (parent : Int) (indent : Option Nat) (done taken : Nat) : List Text → Nat
  | [] => done
  | line :: lines =>
    let taken := taken + line.byteLength
    if line.isBlank then contentBytes keep parent indent (if keep then taken else done) taken lines
    else if fits parent indent line then
      contentBytes keep parent (some (indent.getD (indentOf line))) taken taken lines
    else done

/-- The end of the block scalar whose header is at `start`. -/
def blockScalarEnd (source : Text) (start : Nat) : Nat :=
  let rest := source.restFrom start
  match rest.dropWhile (· ≠ '\n') with
  | [] => source.byteLength
  | _ :: content =>
    let header := rest.firstLine
    let keep := '+' ∈ header.takeWhile (· ≠ '#')
    start + header.byteLength + 1 +
      contentBytes keep (parentIndent source start) none 0 0 (Text.linesWithBreaks content)

end LocatedYaml.Extent
