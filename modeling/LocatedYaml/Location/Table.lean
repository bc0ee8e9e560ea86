import LocatedYaml.Location.Basic
import LocatedYaml.Text.Basic

/-!
# The position table of a text

One entry for each byte offset of the text and one for its end. Columns count characters: the bytes of one
character share its entry. A line feed opens its line: it is column 1 of the line that follows it, and the first
character behind it is column 2.
-/

namespace LocatedYaml

/-- Line and column of the character `c` that follows the one at `before`. -/
def LineColumn.next (before : LineColumn) (c : Char) : LineColumn :=
  if c = '\n' then ⟨before.line + 1, 1⟩ else ⟨before.line, before.column + 1⟩

/-- Line and column of every byte offset of a text, its end included. -/
structure PositionTable where
  entries : Array LineColumn

namespace PositionTable

/-- The entries of `t`, when `before` is the entry of the character in front of it. -/
def entriesFrom (before : LineColumn) : Text → List LineColumn
  | [] => [⟨before.line, before.column + 1⟩]
  | c :: cs => List.replicate c.utf8Size (before.next c) ++ entriesFrom (before.next c) cs

theorem length_entriesFrom (before : LineColumn) (t : Text) :
    (entriesFrom before t).length = t.byteLength + 1 := by
  induction t generalizing before with
  | nil => rfl
  | cons c cs ih => simp [entriesFrom, ih]; omega

def ofText (t : Text) : PositionTable := ⟨(entriesFrom ⟨1, 0⟩ t).toArray⟩

/-- The number of bytes of the text. -/
def byteLength (table : PositionTable) : Nat := table.entries.size - 1

@[simp] theorem byteLength_ofText (t : Text) : (ofText t).byteLength = t.byteLength := by
  simp [ofText, byteLength, length_entriesFrom]

/-- Line and column of a byte offset; unknown outside the text. -/
def lineColumn (table : PositionTable) (offset : Int) : LineColumn :=
  if offset < 0 then .unknown else table.entries[offset.toNat]?.getD .unknown

/-- The position of a byte offset, which is kept as it is. -/
def position (table : PositionTable) (offset : Int) : Position :=
  .ofLineColumn (table.lineColumn offset) offset

/-- The largest offset a position can carry. -/
def maxOffset : Nat := 9223372036854775807

/-- An offset as a position carries it: what is larger than `maxOffset` becomes `maxOffset`. -/
def carried (offset : Nat) : Int := (min offset maxOffset : Nat)

/-- The location of a range, from its first to its last byte; a range that is not there has both offsets `-1`. -/
def location (table : PositionTable) : Option Range → Location
  | some range => ⟨table.position (carried range.start), table.position (carried range.stop - 1)⟩
  | none => ⟨table.position (-1), table.position (-1)⟩

/-- The location of the whole text: from line 1, column 1 to its last byte. -/
def documentLocation (table : PositionTable) : Location :=
  ⟨⟨1, 1, 0⟩, table.position (carried table.byteLength - 1)⟩

end PositionTable

end LocatedYaml
