import LocatedYaml.Token.Basic
import LocatedYaml.Token.Cursor

/-!
# The scanner's state

Tokens are found in the order of the text, but a simple key is recognised only at its `:`. Until then its tokens
wait in a queue, and the tokens that start the key go in front of them.
-/

namespace LocatedYaml

/-- A place where a key without the indicator `?` may have started. -/
structure SimpleKey where
  possible : Bool
  /-- Nothing but a key can stand at this place. -/
  required : Bool
  /-- The number of the key's first token, counted from the start of the text. -/
  number : Nat
  mark : Mark

namespace SimpleKey

/-- The entry of a flow level on which no key has started. -/
def none : SimpleKey := ⟨false, false, 0, ⟨0, 1, 0⟩⟩

end SimpleKey

/-- An indentation that was left for a deeper one. -/
structure Indentation where
  column : Int
  /-- The deeper one belongs to a block collection, whose end is a token. -/
  opensBlock : Bool

structure Scanner where
  cursor : Cursor
  /-- The tokens that have not been handed over, in order. -/
  queue : List Token := []
  /-- How many tokens have been handed over. -/
  delivered : Nat := 0
  /-- The column of the innermost block collection, or `-1`. -/
  indent : Int := -1
  /-- The outer indentations, innermost first. -/
  indents : List Indentation := []
  /-- How many flow collections are open. -/
  flowLevel : Nat := 0
  /-- The simple keys of the flow levels, innermost first. -/
  keys : List SimpleKey := [SimpleKey.none]
  /-- A simple key may start here. -/
  keyAllowed : Bool := true
  /-- The index at which a `:` is a value indicator without a space behind it. -/
  adjacent : Nat := 0
  /-- The innermost flow mapping has been opened by a token of its own. -/
  flowMapping : Bool := false
  /-- A single pair inside a flow sequence is open. -/
  implicitMapping : Bool := false

abbrev Scan := StateT Scanner (Except SyntaxError)

namespace Scanner

def ofText (t : Text) : Scanner := { cursor := .ofText t }

/-! ### Moving -/

def mark : Scan Mark := return (← get).cursor.mark

def char : Scan Char := return (← get).cursor.char

def charAt (n : Nat) : Scan Char := return (← get).cursor.charAt n

def move (f : Cursor → Cursor) : Scan Unit := modify fun s => { s with cursor := f s.cursor }

def next : Scan Unit := move Cursor.next

def failAt (mark : Mark) (fault : Fault) : Scan α := throw (fault.located mark)

def fail (fault : Fault) : Scan α := do failAt (← mark) fault

def failIf (condition : Bool) (fault : Fault) : Scan Unit := if condition then fail fault else pure ()

/-- Runs a reader that moves the cursor. -/
def read (f : Cursor → Except SyntaxError (α × Cursor)) : Scan α := do
  let s ← get
  let (a, cursor) ← f s.cursor
  set { s with cursor }
  return a

/-- Takes the characters of a class. -/
def takeWhile (p : Char → Bool) : Scan Text := read fun c => .ok (c.takeWhile p)

def skipToLineEnd (tabs : Bool) : Scan Cursor.Skipped := read (·.skipToLineEnd tabs)

/-- Reading is inside a flow collection. -/
def inFlow : Scan Bool := return (← get).flowLevel ≠ 0

/-! ### The queue -/

def push (kind : TokenKind) (mark : Mark) : Scan Unit :=
  modify fun s => { s with queue := s.queue ++ [⟨kind, mark⟩] }

/-- Puts a token in front of the one with the given number. -/
def insert (number : Nat) (kind : TokenKind) (mark : Mark) : Scan Unit :=
  modify fun s => { s with queue := s.queue.insertIdx (number - s.delivered) ⟨kind, mark⟩ }

/-! ### Indentation -/

/-- Starts a block collection at `column`, if that is deeper than the current one. Its token goes to the end of the
queue, or in front of the token with the given number. -/
def openBlock (column : Nat) (kind : TokenKind) (mark : Mark) (number : Option Nat) : Scan Unit := do
  if ← inFlow then return
  modify fun s =>
    match s.indents with
    | outer :: indents =>
      if s.indent ≤ column ∧ !outer.opensBlock then { s with indent := outer.column, indents } else s
    | [] => s
  if (← get).indent < column then
    modify fun s => { s with indent := column, indents := ⟨s.indent, true⟩ :: s.indents }
    match number with
    | some number => insert number kind mark
    | none => push kind mark

/-- Ends the block collections that are indented deeper than `column`. -/
def closeBlocks (column : Int) : Scan Unit := do
  unless ← inFlow do
    modify fun s => close s.indents s
where
  close : List Indentation → Scanner → Scanner
    | [], s => s
    | outer :: indents, s =>
      if s.indent ≤ column then s
      else
        let queue := if outer.opensBlock then s.queue ++ [⟨.blockEnd, s.cursor.mark⟩] else s.queue
        close indents { s with indent := outer.column, indents, queue }

/-- Counts what follows as indented one column deeper than the current block collection. -/
def deepen : Scan Unit := do
  unless ← inFlow do
    modify fun s =>
      match s.indents with
      | outer :: _ =>
        if outer.opensBlock then { s with indent := s.indent + 1, indents := ⟨s.indent, false⟩ :: s.indents } else s
      | [] => s

/-- Gives up the indentations that belong to no block collection. -/
def leaveDeepened : Scan Unit := modify fun s => leave s.indents s
where
  leave : List Indentation → Scanner → Scanner
    | [], s => s
    | outer :: indents, s =>
      if outer.opensBlock then s else leave indents { s with indent := outer.column, indents }

/-! ### Simple keys -/

def setKeyAllowed (keyAllowed : Bool) : Scan Unit := modify fun s => { s with keyAllowed }

/-- The simple key of the current flow level. -/
def simpleKey : Scan SimpleKey := return (← get).keys.headD SimpleKey.none

/-- Notes that a simple key may start at the next token. -/
def saveKey : Scan Unit := modify fun s =>
  if s.keyAllowed then
    let opensBlock := match s.indents with
      | outer :: _ => outer.opensBlock
      | [] => false
    let key : SimpleKey := {
      possible := true
      required := s.flowLevel == 0 && s.indent == (s.cursor.column : Int) && opensBlock
      number := s.delivered + s.queue.length
      mark := s.cursor.mark }
    { s with keys := key :: s.keys.tail }
  else s

/-- Rules out a key on the current flow level. -/
def dropKey : Scan Unit := do
  let key ← simpleKey
  failIf (key.possible && key.required) .simpleKeyExpected
  modify fun s => { s with keys := { key with possible := false } :: s.keys.tail }

/-- A simple key stays on one line and within 1024 characters; outside flow collections it is ruled out then. -/
def dropStaleKeys : Scan Unit := do
  let s ← get
  let stale (key : SimpleKey) : Bool :=
    key.possible && s.flowLevel == 0 &&
      (key.mark.line < s.cursor.mark.line || key.mark.index + 1024 < s.cursor.mark.index)
  failIf (s.keys.any fun key => stale key && key.required) .colonExpected
  set { s with keys := s.keys.map fun key => if stale key then { key with possible := false } else key }

/-- The first token in the queue may still turn out to be a key. -/
def awaitsKey (s : Scanner) : Bool := s.keys.any fun key => key.possible && key.number == s.delivered

/-- Skips what stands between tokens. A new line allows a simple key outside flow collections. -/
def skipToToken : Scan Unit := do
  let s ← get
  let block := if s.indents.isEmpty then none else some s.indent
  let broken ← read fun c => c.skipToToken block (c.size + 1)
  if broken && !(← inFlow) then setKeyAllowed true

end Scanner

end LocatedYaml
