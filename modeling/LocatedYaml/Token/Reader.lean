import LocatedYaml.Token.Block
import LocatedYaml.Token.Plain
import LocatedYaml.Token.Quoted
import LocatedYaml.Token.Tag

/-!
# Reading tokens

The character at the cursor decides which token starts there. `Token.ofText` is the row of all tokens, up to the end
of the text or its first fault.
-/

namespace LocatedYaml

namespace Scanner

/-! ### Documents -/

/-- The end of the text, which closes everything that is open. -/
def endOfText : Scan Unit := do
  modify fun s =>
    let ⟨index, line, column⟩ := s.cursor.mark
    if column = 0 then s else { s with cursor := { s.cursor with mark := ⟨index, line + 1, 0⟩ } }
  failIf ((← get).keys.any fun key => key.required && key.possible) .simpleKeyExpected
  modify fun s => { s with keys := s.keys.map fun key => { key with possible := false } }
  closeBlocks (-1)
  setKeyAllowed false
  push .streamEnd (← mark)

def directive : Scan Unit := do
  closeBlocks (-1)
  dropKey
  setKeyAllowed false
  let start ← mark
  push (← readDirective start) start

/-- A marker of the start or the end of a document. -/
def documentMarker (kind : TokenKind) : Scan Unit := do
  closeBlocks (-1)
  dropKey
  setKeyAllowed false
  let start ← mark
  move (·.skip 3)
  push kind start

/-- The marker of the end of a document, with nothing but a comment behind it. -/
def documentEnd : Scan Unit := do
  documentMarker .documentEnd
  let _ ← skipToLineEnd true
  failIf (!Token.isLineEnd (← char)) .contentAfterDocumentEnd

/-! ### Flow collections -/

/-- The largest number of flow collections inside each other. -/
def maxFlowLevel : Nat := 255

def flowStart (kind : TokenKind) : Scan Unit := do
  saveKey
  deepen
  failIf ((← get).flowLevel == maxFlowLevel) .flowTooDeep
  modify fun s => { s with flowLevel := s.flowLevel + 1, keys := SimpleKey.none :: s.keys }
  setKeyAllowed true
  let start ← mark
  next
  if kind = .flowMappingStart then modify fun s => { s with flowMapping := true }
  let _ ← skipToLineEnd true
  push kind start

/-- Ends a single pair inside a flow sequence, if there is one. -/
def endImplicitMapping (mark : Mark) : Scan Unit := do
  if (← get).implicitMapping then
    modify fun s => { s with implicitMapping := false, flowMapping := false }
    push .flowMappingEnd mark

def flowEnd (kind : TokenKind) : Scan Unit := do
  dropKey
  if ← inFlow then modify fun s => { s with flowLevel := s.flowLevel - 1, keys := s.keys.tail }
  setKeyAllowed false
  let start ← mark
  endImplicitMapping start
  next
  let _ ← skipToLineEnd true
  if ← inFlow then modify fun s => { s with adjacent := s.cursor.mark.index }
  push kind start

def flowEntry : Scan Unit := do
  dropKey
  setKeyAllowed true
  let start ← mark
  endImplicitMapping start
  next
  let _ ← skipToLineEnd true
  push .flowEntry start

/-! ### Block collections, keys and values -/

/-- The entry indicator `-`. Its token is found behind the white space that follows it. -/
def blockEntry : Scan Unit := do
  failIf (← inFlow) .entryInFlow
  let s ← get
  failIf (!s.keyAllowed) .entryNotAllowed
  match s.queue.getLast? with
  | some ⟨.anchor _, mark⟩ | some ⟨.tag _, mark⟩ =>
    if s.cursor.column = 0 ∧ mark.column = 0 ∧ -1 < s.indent then failAt mark .anchorIndentation
  | _ => pure ()
  let start ← mark
  next
  openBlock start.column .blockSequenceStart start none
  let skipped ← skipToLineEnd true
  failIf (skipped.tab && (← char) == '-' && Token.isGap (← charAt 1)) .entryNeedsSpace
  let c ← char
  if Token.isBreak c || Token.isFlow c then deepen
  dropKey
  setKeyAllowed true
  push .blockEntry (← mark)

/-- The key indicator `?`. -/
def keyIndicator : Scan Unit := do
  let start ← mark
  if ← inFlow then modify fun s => { s with flowMapping := true }
  else
    failIf (!(← get).keyAllowed) .keyNotAllowed
    openBlock start.column .blockMappingStart start none
  dropKey
  setKeyAllowed (!(← inFlow))
  next
  let (spaced, broken) ← read fun c => .ok (c.skipSpacesAndBreaks (c.size + 1))
  if broken && !(← inFlow) then setKeyAllowed true
  failIf (!spaced) .spaceExpected
  failIf ((← char) == '\t') .tabInKey
  push .key start

/-- The value indicator `:`. It settles that the token noted as a possible key is one. -/
def valueIndicator : Scan Unit := do
  let key ← simpleKey
  let start ← mark
  let flow ← inFlow
  modify fun s => { s with implicitMapping := flow && !s.flowMapping }
  let implicitMapping := (← get).implicitMapping
  next
  if (← char) == '\t' then
    let skipped ← skipToLineEnd true
    let c ← char
    failIf (!skipped.space && (c == '-' || Token.isWordChar c)) .valueNeedsSpace
  let behind ← mark
  if key.possible then
    insert key.number .key key.mark
    if implicitMapping then
      if key.mark.line < start.line then failAt start .misplacedColon
      insert key.number .flowMappingStart behind
    openBlock key.mark.column .blockMappingStart start (some key.number)
    deepen
    modify fun s => { s with keys := { key with possible := false } :: s.keys.tail }
    setKeyAllowed false
  else
    if implicitMapping then push .flowMappingStart behind
    unless flow do
      unless (← get).keyAllowed do failAt start .valueNotAllowed
      openBlock start.column .blockMappingStart start none
    deepen
    setKeyAllowed (!flow)
  push .value start

/-! ### Nodes -/

/-- Starts a node that may be a simple key and that no key can follow directly. -/
def startNode : Scan Mark := do
  saveKey
  setKeyAllowed false
  mark

def aliasNode : Scan Unit := do
  let start ← startNode
  push (.aliasOf (← anchorName start)) start

def anchorProperty : Scan Unit := do
  let start ← startNode
  push (.anchor (← anchorName start)) start

def tagProperty : Scan Unit := do
  let start ← startNode
  push (.tag (← readTag start)) start

def blockScalar (literal : Bool) : Scan Unit := do
  saveKey
  setKeyAllowed true
  let token ← readBlock literal
  push token.kind token.mark

/-- A quoted scalar; a `:` right behind it and what may stand between is a value indicator. -/
def quotedScalar (single : Bool) : Scan Unit := do
  let _ ← startNode
  let token ← readQuoted single
  skipToToken
  modify fun s => { s with adjacent := s.cursor.mark.index }
  push token.kind token.mark

def plainScalar : Scan Unit := do
  let _ ← startNode
  let token ← readPlain
  push token.kind token.mark

/-! ### The next token -/

/-- Reads the token that starts with the character `c`, behind which `following` stands. -/
def nodeOrIndicator (c following : Char) : Scan Unit := do
  let s ← get
  let flow := s.flowLevel ≠ 0
  let gap := Token.isGap following
  match c with
  | '[' => flowStart .flowSequenceStart
  | '{' => flowStart .flowMappingStart
  | ']' => flowEnd .flowSequenceEnd
  | '}' => flowEnd .flowMappingEnd
  | ',' => flowEntry
  | '*' => aliasNode
  | '&' => anchorProperty
  | '!' => tagProperty
  | '"' => quotedScalar false
  | '\x27' => quotedScalar true
  | '%' | '@' | '\x60' => fail (.unexpectedCharacter c)
  | '-' => if gap then blockEntry else plainScalar
  | '?' => if gap then keyIndicator else plainScalar
  | ':' =>
    if gap || flow && (Token.isFlow following || s.cursor.mark.index == s.adjacent) then valueIndicator
    else plainScalar
  | '|' => if flow then plainScalar else blockScalar true
  | '>' => if flow then plainScalar else blockScalar false
  | _ => plainScalar

/-- Reads what stands at the cursor: white space, and then one token with those that it brings about. -/
def readToken : Scan Unit := do
  skipToToken
  dropStaleKeys
  closeBlocks (← get).cursor.column
  move (·.look 4)
  let s ← get
  let c := s.cursor
  if c.rest.isEmpty then endOfText
  else if c.column = 0 ∧ c.char = '%' then directive
  else if c.isMarker '-' then documentMarker .documentStart
  else if c.isMarker '.' then documentEnd
  else
    failIf ((c.column : Int) < s.indent) .invalidIndentation
    nodeOrIndicator c.char (c.charAt 1)

/-- Hands over the tokens at the front of the queue that cannot become a key any more. -/
def deliver (s : Scanner) : List ReadToken × Scanner :=
  go s.queue s
where
  go : List Token → Scanner → List ReadToken × Scanner
    | [], s => ([], { s with queue := [] })
    | token :: queue, s =>
      if s.awaitsKey then ([], { s with queue := token :: queue })
      else
        let (tokens, s') := go queue { s with delivered := s.delivered + 1 }
        (⟨token, s.cursor.mark⟩ :: tokens, s')

/-- The tokens that are left to read. Every token but the end of the text takes a character, so `fuel` need not
exceed the number of characters by more than one. -/
def readAll : Nat → Scanner → List (Except SyntaxError ReadToken)
  | 0, _ => []
  | fuel + 1, s =>
    match (do readToken; dropStaleKeys : Scan Unit).run s with
    | .error e => [.error e]
    | .ok (_, s) =>
      let (tokens, s) := s.deliver
      if tokens.any (·.token.kind = .streamEnd) then tokens.map .ok else tokens.map .ok ++ readAll fuel s

end Scanner

/-- The tokens of a text up to its end or its first fault. -/
def Token.ofText (t : Text) : List (Except SyntaxError ReadToken) :=
  let s := Scanner.ofText t
  s.readAll (s.cursor.size + 1)

end LocatedYaml
