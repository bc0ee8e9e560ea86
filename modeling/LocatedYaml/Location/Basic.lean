/-!
# Positions and locations

A `Range` is what the loader knows about a node: the bytes it covers, end excluded. A `Location` is what the tree
shows: two positions, both included. Lines and columns count from 1; `-1` stands for what is not known.
-/

namespace LocatedYaml

/-- Bytes `start` to `stop` of a source, `stop` excluded. -/
structure Range where
  start : Nat
  stop : Nat
  deriving DecidableEq, Repr

/-- A line and a column. -/
structure LineColumn where
  line : Int
  column : Int
  deriving DecidableEq, Repr

namespace LineColumn

/-- The answer for offsets outside the text. -/
def unknown : LineColumn := ⟨-1, -1⟩

def isUnknown (lc : LineColumn) : Bool := lc = unknown

end LineColumn

/-- A place in a source: line, column and byte offset, compared in this order. -/
structure Position where
  line : Int
  column : Int
  offset : Int
  deriving DecidableEq, Repr, Ord

namespace Position

def ofLineColumn (lc : LineColumn) (offset : Int) : Position := ⟨lc.line, lc.column, offset⟩

def lineColumn (p : Position) : LineColumn := ⟨p.line, p.column⟩

/-- Neither line nor column is known. -/
def isUnknown (p : Position) : Bool := p.lineColumn.isUnknown

/-- The positions in ascending order. -/
def sort (ps : List Position) : List Position := ps.mergeSort fun p q => (compare p q).isLE

end Position

/-- Where a node of the tree stands, both ends included. -/
structure Location where
  start : Position
  stop : Position
  deriving DecidableEq, Repr

namespace Location

/-- From the start of `a` to the end of `b`. -/
def through (a b : Location) : Location := ⟨a.start, b.stop⟩

end Location

end LocatedYaml
