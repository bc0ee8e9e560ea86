import LocatedYaml.Extent.Basic
import LocatedYaml.Text.Slice

/-!
# Scanning by offsets

Block scalars scanned by byte offsets into the source: each piece of the source that is looked at, and each byte, is
taken from it by its offsets, which fails where the source has no such piece. Scalars of the other styles, aliases and
flow collections are scanned character by character, from the start to where they end, and take no pieces.
-/

namespace LocatedYaml.Extent.Sliced

open Text

/-! ### The owner -/

/-- An entry or key indicator stands at `index`, behind it a space or the end. -/
def isIndicatorAt (bytes : List UInt8) (index : Nat) : Except AccessFault Bool := do
  let byte ← byteAt bytes index
  if byte = '-'.toUInt8 ∨ byte = '?'.toUInt8 then
    if index + 1 = bytes.length then return true
    else
      let next ← byteAt bytes (index + 1)
      return next = ' '.toUInt8
  else return false

/-- The column of the node that owns a header, from `index` on in the bytes that stand before it on its line. -/
def ownerColumn (bytes : List UInt8) (index : Nat) (indicator : Option Nat) : Except AccessFault Int := do
  if index < bytes.length then
    let byte ← byteAt bytes index
    if byte = ' '.toUInt8 then ownerColumn bytes (index + 1) indicator
    else
      let isIndicator ← isIndicatorAt bytes index
      if isIndicator then ownerColumn bytes (index + 1) (some index) else return index
  else
    match indicator with
    | some column => return column
    | none => return -1
termination_by bytes.length - index

/-- The column that the content of a block scalar has to exceed. -/
def parentIndent (source : Text) (start : Nat) : Except AccessFault Int := do
  let before ← source.slice 0 start
  let line ← source.slice before.lastLineStart start
  if (dropStart? ['-', '-', '-'] line.trimStart).isSome then return -1 else ownerColumn line.bytes 0 none

/-! ### The content -/

/-- Where the line ends that starts at `position`, with `rest` standing from there on: at its line feed, or with the
source. -/
def lineEnd (source rest : Text) (position : Nat) : Nat :=
  match rest.firstBreak? with
  | some n => position + n
  | none => source.byteLength

theorem le_lineEnd {source : Text} {position : Nat} (h : position < source.byteLength) (rest : Text) :
    position ≤ lineEnd source rest position := by
  unfold lineEnd
  split
  · exact Nat.le_add_right position _
  · exact Nat.le_of_lt h

/-- The end of the content, which ended at `stop` before the lines from `position` on. -/
def contentEnd (source : Text) (keep : Bool) (parent : Int) (indent : Option Nat) (stop position : Nat) :
    Except AccessFault Nat := do
  if position < source.byteLength then
    let rest ← source.slice position source.byteLength
    let lineEnd := lineEnd source rest position
    let line ← source.slice position lineEnd
    let throughBreak := min (lineEnd + 1) source.byteLength
    if line.isBlank then contentEnd source keep parent indent (if keep then throughBreak else stop) (lineEnd + 1)
    else if fits parent indent line then
      contentEnd source keep parent (some (indent.getD (indentOf line))) throughBreak (lineEnd + 1)
    else return stop
  else return stop
termination_by source.byteLength - position
decreasing_by all_goals have := le_lineEnd ‹position < source.byteLength› rest; omega

/-- The end of the block scalar whose header is at `start`. -/
def blockScalarEnd (source : Text) (start : Nat) : Except AccessFault Nat := do
  match (source.restFrom start).firstBreak? with
  | none => return source.byteLength
  | some n =>
    let header ← source.slice start (start + n)
    let keep := '+' ∈ header.takeWhile (· ≠ '#')
    let parent ← parentIndent source start
    contentEnd source keep parent none (start + n + 1) (start + n + 1)

/-- The end of a scalar that starts at `start`. -/
def scalarEnd (source : Text) (start : Nat) (style : Scalar.Style) (value : Text) : Except AccessFault Nat :=
  match style with
  | .plain => return plainEnd source start value
  | .singleQuoted => return singleQuotedEnd source start
  | .doubleQuoted => return doubleQuotedEnd source start
  | .literal | .folded => blockScalarEnd source start

/-! ### The header -/

/-- A header can start at `index`: the line starts there, or a blank stands in front. -/
def hasRoom (line : Text) (index : Nat) : Except AccessFault Bool := do
  if index = 0 then return true
  else
    let before ← line.slice 0 index
    return before.getLast?.any fun c => c = ' ' || c = '\t'

/-- A header starts at `index`, where the character `c` stands. -/
def isHeaderAt (line : Text) (index : Nat) (c : Char) : Except AccessFault Bool := do
  if c = '|' ∨ c = '>' then
    let room ← hasRoom line index
    if room then
      let suffix ← line.slice index line.byteLength
      return isBlockHeader suffix
    else return false
  else return false

/-- The index of the first header in a line, among the characters from `index` on. -/
def findHeader? (line : Text) (index : Nat) : Text → Except AccessFault (Option Nat)
  | [] => return none
  | c :: cs => do
    let found ← isHeaderAt line index c
    if found then return some index else findHeader? line (index + c.utf8Size) cs

/-- The offset of the header of a block scalar whose content was found at `marker`. -/
def blockScalarStart (source : Text) (marker : Nat) : Except AccessFault Nat := do
  if isBlockHeader (source.restFrom marker) then return marker
  else
    let before := (source.uptoOrAll marker).trimEnd
    let line ← before.slice before.lastLineStart before.byteLength
    match ← findHeader? line 0 line with
    | some index => return before.lastLineStart + index
    | none => return marker

end LocatedYaml.Extent.Sliced
