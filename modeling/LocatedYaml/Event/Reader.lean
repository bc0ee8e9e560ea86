import LocatedYaml.Scalar.Schema
import LocatedYaml.Token.Reader

/-!
# Reading events

Tokens are put together to events. What may come next is one of a few places in the structure of the text, and the
enclosing places wait on a stack. `Event.ofText` is the row of all events, up to the first fault.
-/

namespace LocatedYaml

/-- A place in the structure of a text, by what may come there. -/
inductive Place where
  /-- A document; `implicit` if it may come without a marker. -/
  | document (implicit : Bool)
  /-- The node of a document behind its marker. -/
  | documentContent
  | documentEnd
  | blockNode
  | blockMappingKey (first : Bool)
  | blockMappingValue
  | blockSequenceEntry (first : Bool)
  /-- An entry of a sequence that is not indented deeper than the key it belongs to. -/
  | indentlessEntry
  | flowSequenceEntry (first : Bool)
  | flowMappingKey (first : Bool)
  | flowMappingValue
  /-- The value of a key without the value indicator. -/
  | flowMappingNoValue
  /-- The key of a single pair in a flow sequence, and what follows it. -/
  | singlePairKey
  | singlePairValue
  | singlePairEnd
  | done

structure EventReader where
  tokens : List (Except SyntaxError ReadToken)
  /-- How far the text has been read for the tokens looked at so far. -/
  reached : Mark := ⟨0, 1, 0⟩
  place : Place := .document true
  enclosing : List Place := []
  /-- What the tag handles of the current document stand for. -/
  handles : List (Text × Text) := []
  /-- The anchors of the current document, the latest first. -/
  anchors : List (Text × AnchorId) := []
  nextAnchor : AnchorId := 1

abbrev ReadEvent := StateT EventReader (Except SyntaxError)

namespace EventReader

def failAt (mark : Mark) (fault : Fault) : ReadEvent α := throw (fault.located mark)

/-- The next token, which stays the next one. -/
def peek : ReadEvent Token := do
  let r ← get
  match r.tokens with
  | [] => failAt r.reached .unexpectedEnd
  | .error e :: _ => throw e
  | .ok ⟨token, reached⟩ :: _ =>
    set { r with reached }
    return token

def drop : ReadEvent Unit := modify fun r => { r with tokens := r.tokens.tail }

def goto (place : Place) : ReadEvent Unit := modify fun r => { r with place }

/-- Notes where to go on when what comes now is complete. -/
def enclose (place : Place) : ReadEvent Unit := modify fun r => { r with enclosing := place :: r.enclosing }

/-- Goes on at the enclosing place. -/
def leave : ReadEvent Unit := modify fun r =>
  match r.enclosing with
  | [] => { r with place := .done }
  | place :: enclosing => { r with place, enclosing }

/-- An event at a place of the text. -/
def event (e : Event) (mark : Mark) : ReadEvent MarkedEvent := return ⟨e, mark.index⟩

/-- The scalar that stands where there is no node. -/
def emptyScalar (mark : Mark) : ReadEvent MarkedEvent := event (.scalar [] .plain 0 none) mark

/-! ### Documents -/

/-- Reads directives. Each of them replaces the handles declared so far by its own. -/
def directives (versioned : Bool) : Nat → ReadEvent Unit
  | 0 => return
  | fuel + 1 => do
    let token ← peek
    match token.kind with
    | .versionDirective =>
      if versioned then failAt token.mark .duplicateVersion
      modify fun r => { r with handles := [] }
      drop
      directives true fuel
    | .tagDirective handle expansion =>
      modify fun r => { r with handles := [(handle, expansion)] }
      drop
      directives versioned fuel
    | _ => return

/-- Skips markers of the ends of documents. -/
def skipDocumentEnds : Nat → ReadEvent Unit
  | 0 => return
  | fuel + 1 => do
    if (← peek).kind = .documentEnd then
      drop
      skipDocumentEnds fuel

def documentStart (mark : Mark) : ReadEvent MarkedEvent := do
  enclose .documentEnd
  modify fun r => { r with anchors := [] }
  event .documentStart mark

def document (implicit : Bool) : ReadEvent MarkedEvent := do
  skipDocumentEnds ((← get).tokens.length + 1)
  let token ← peek
  let marked : Bool := match token.kind with
    | .versionDirective | .tagDirective .. | .documentStart => true
    | _ => !implicit
  if token.kind = .streamEnd then
    goto .done
    drop
    event .streamEnd token.mark
  else
    directives false ((← get).tokens.length + 1)
    if marked then
      let token ← peek
      unless token.kind = .documentStart do failAt token.mark .documentStartExpected
      drop
      goto .documentContent
      documentStart token.mark
    else
      goto .blockNode
      documentStart token.mark

def documentEnd : ReadEvent MarkedEvent := do
  let token ← peek
  modify fun r => { r with handles := [] }
  if token.kind = .documentEnd then
    drop
    goto (.document true)
  else
    match token.kind with
    | .versionDirective | .tagDirective .. => failAt token.mark .directiveBeforeDocumentEnd
    | _ => goto (.document false)
  event .documentEnd token.mark

/-! ### Nodes -/

/-- A tag with its handle replaced by what it stands for. -/
def resolveTag (mark : Mark) (tag : Tag) : ReadEvent Tag := do
  let declared := fun handle => return (← get).handles.lookup handle
  if tag.handle = ['!', '!'] then
    return ⟨(← declared tag.handle).getD Scalar.coreTagStart, tag.suffix⟩
  match ← declared tag.handle with
  | some expansion => return ⟨expansion, tag.suffix⟩
  | none =>
    if 2 ≤ tag.handle.length ∧ tag.handle.head? = some '!' ∧ tag.handle.getLast? = some '!' then
      failAt mark .undeclaredHandle
    return tag

/-- Numbers the definition of an anchor. -/
def defineAnchor (name : Text) : ReadEvent AnchorId := do
  let r ← get
  set { r with anchors := (name, r.nextAnchor) :: r.anchors, nextAnchor := r.nextAnchor + 1 }
  return r.nextAnchor

/-- The anchor and the tag in front of a node, in either order. -/
def properties : ReadEvent (AnchorId × Option Tag) := do
  let token ← peek
  match token.kind with
  | .anchor name =>
    drop
    let id ← defineAnchor name
    match (← peek).kind with
    | .tag tag =>
      drop
      return (id, some (← resolveTag token.mark tag))
    | _ => return (id, none)
  | .tag tag =>
    drop
    let tag ← resolveTag token.mark tag
    match (← peek).kind with
    | .anchor name =>
      drop
      return (← defineAnchor name, some tag)
    | _ => return (0, some tag)
  | _ => return (0, none)

/-- An alias. -/
def aliasNode (name : Text) (mark : Mark) : ReadEvent MarkedEvent := do
  drop
  leave
  match (← get).anchors.lookup name with
  | some id => event (.aliasOf id) mark
  | none => failAt mark .unknownAnchor

/-- A node: an alias, or properties and content. Block collections and indentless sequences are content only where
they are allowed. -/
def node (block indentless : Bool) : ReadEvent MarkedEvent := do
  let token ← peek
  match token.kind with
  | .aliasOf name => aliasNode name token.mark
  | _ =>
    let (anchor, tag) ← properties
    let ⟨kind, mark⟩ ← peek
    let started (place : Place) (e : Event) : ReadEvent MarkedEvent := do
      goto place
      event e mark
    let other : ReadEvent MarkedEvent := do
      if anchor = 0 ∧ tag.isNone then failAt mark .nodeExpected
      leave
      event (.scalar [] .plain anchor tag) mark
    match kind with
    | .scalar style text =>
      drop
      leave
      event (.scalar text style anchor tag) mark
    | .flowSequenceStart => started (.flowSequenceEntry true) (.sequenceStart anchor)
    | .flowMappingStart => started (.flowMappingKey true) (.mappingStart anchor)
    | .blockEntry => if indentless then started .indentlessEntry (.sequenceStart anchor) else other
    | .blockSequenceStart => if block then started (.blockSequenceEntry true) (.sequenceStart anchor) else other
    | .blockMappingStart => if block then started (.blockMappingKey true) (.mappingStart anchor) else other
    | _ => other

/-- A node that is followed by `place`; an empty scalar if the next token rules a node out. -/
def nodeUnless (absent : TokenKind → Bool) (place : Place) (block indentless : Bool) : ReadEvent MarkedEvent := do
  let token ← peek
  if absent token.kind then
    goto place
    emptyScalar token.mark
  else
    enclose place
    node block indentless

/-- The node of a document behind its marker. -/
def documentContent : ReadEvent MarkedEvent := do
  let token ← peek
  match token.kind with
  | .versionDirective | .tagDirective .. | .documentStart | .documentEnd | .streamEnd =>
    leave
    emptyScalar token.mark
  | _ => node true false

/-! ### Block collections -/

/-- Ends a collection whose last token is the next one. -/
def endCollection (e : Event) (mark : Mark) : ReadEvent MarkedEvent := do
  drop
  leave
  event e mark

/-- No node comes before the next part of a block mapping. -/
def endsPair (kind : TokenKind) : Bool := kind = .key || kind = .value || kind = .blockEnd

def blockMappingKey (first : Bool) : ReadEvent MarkedEvent := do
  if first then
    let _ ← peek
    drop
  let token ← peek
  match token.kind with
  | .key =>
    drop
    nodeUnless endsPair .blockMappingValue true true
  | .value =>
    goto .blockMappingValue
    emptyScalar token.mark
  | .blockEnd => endCollection .mappingEnd token.mark
  | _ => failAt token.mark .blockKeyExpected

def blockMappingValue : ReadEvent MarkedEvent := do
  let token ← peek
  if token.kind = .value then
    drop
    nodeUnless endsPair (.blockMappingKey false) true true
  else
    goto (.blockMappingKey false)
    emptyScalar token.mark

def blockSequenceEntry (first : Bool) : ReadEvent MarkedEvent := do
  if first then
    let _ ← peek
    drop
  let token ← peek
  match token.kind with
  | .blockEnd => endCollection .sequenceEnd token.mark
  | .blockEntry =>
    drop
    nodeUnless (fun kind => kind = .blockEntry || kind = .blockEnd) (.blockSequenceEntry false) true false
  | _ => failAt token.mark .blockEntryExpected

def indentlessEntry : ReadEvent MarkedEvent := do
  let token ← peek
  if token.kind = .blockEntry then
    drop
    nodeUnless (fun kind => kind = .blockEntry || endsPair kind) .indentlessEntry true false
  else
    leave
    event .sequenceEnd token.mark

/-! ### Flow collections -/

def flowSequenceEntry (first : Bool) : ReadEvent MarkedEvent := do
  if first then
    let _ ← peek
    drop
  let token ← peek
  if token.kind = .flowSequenceEnd then endCollection .sequenceEnd token.mark
  else
    unless first do
      unless token.kind = .flowEntry do failAt token.mark .flowSequenceSeparator
      drop
    let token ← peek
    match token.kind with
    | .flowSequenceEnd => endCollection .sequenceEnd token.mark
    | .key =>
      goto .singlePairKey
      drop
      event (.mappingStart 0) token.mark
    | _ =>
      enclose (.flowSequenceEntry false)
      node false false

def singlePairKey : ReadEvent MarkedEvent := do
  let token ← peek
  match token.kind with
  | .value | .flowEntry | .flowSequenceEnd =>
    drop
    goto .singlePairValue
    emptyScalar token.mark
  | _ =>
    enclose .singlePairValue
    node false false

def singlePairValue : ReadEvent MarkedEvent := do
  let token ← peek
  if token.kind = .value then
    drop
    nodeUnless (fun kind => kind = .flowEntry || kind = .flowSequenceEnd) .singlePairEnd false false
  else
    goto .singlePairEnd
    emptyScalar token.mark

/-- The end of a single pair, which no token marks, is found where reading stands. -/
def singlePairEnd : ReadEvent MarkedEvent := do
  goto (.flowSequenceEntry false)
  event .mappingEnd (← get).reached

/-- The end of a mapping behind a separator is found at the separator. -/
def flowMappingKey (first : Bool) : ReadEvent MarkedEvent := do
  if first then
    let _ ← peek
    drop
  let found ← peek
  if found.kind = .flowMappingEnd then endCollection .mappingEnd found.mark
  else
    unless first do
      unless found.kind = .flowEntry do failAt found.mark .flowMappingSeparator
      drop
    let token ← peek
    match token.kind with
    | .key =>
      drop
      nodeUnless (fun kind => kind = .value || kind = .flowEntry || kind = .flowMappingEnd) .flowMappingValue
        false false
    | .value =>
      goto .flowMappingValue
      emptyScalar token.mark
    | .flowMappingEnd => endCollection .mappingEnd found.mark
    | _ =>
      enclose .flowMappingNoValue
      node false false

def flowMappingValue : ReadEvent MarkedEvent := do
  let token ← peek
  if token.kind = .value then
    drop
    nodeUnless (fun kind => kind = .flowEntry || kind = .flowMappingEnd) (.flowMappingKey false) false false
  else
    goto (.flowMappingKey false)
    emptyScalar token.mark

def flowMappingNoValue : ReadEvent MarkedEvent := do
  let token ← peek
  goto (.flowMappingKey false)
  emptyScalar token.mark

/-! ### All events -/

/-- The event at the current place. -/
def next : ReadEvent MarkedEvent := do
  match (← get).place with
  | .document implicit => document implicit
  | .documentContent => documentContent
  | .documentEnd => documentEnd
  | .blockNode => node true false
  | .blockMappingKey first => blockMappingKey first
  | .blockMappingValue => blockMappingValue
  | .blockSequenceEntry first => blockSequenceEntry first
  | .indentlessEntry => indentlessEntry
  | .flowSequenceEntry first => flowSequenceEntry first
  | .flowMappingKey first => flowMappingKey first
  | .flowMappingValue => flowMappingValue
  | .flowMappingNoValue => flowMappingNoValue
  | .singlePairKey => singlePairKey
  | .singlePairValue => singlePairValue
  | .singlePairEnd => singlePairEnd
  | .done => do failAt (← get).reached .unexpectedEnd

/-- The events that are left to read. -/
def readAll : Nat → EventReader → List Reading
  | 0, _ => []
  | fuel + 1, r =>
    match next.run r with
    | .error e => [.error e]
    | .ok (e, r) => if e.event = .streamEnd then [.ok e] else .ok e :: readAll fuel r

end EventReader

/-- The events of a row of tokens. No token is behind more than four events: a document, a collection, a missing
key or value and the end of a collection. -/
def Event.ofTokens (tokens : List (Except SyntaxError ReadToken)) : List Reading :=
  .ok ⟨.streamStart, 0⟩ :: EventReader.readAll (4 * tokens.length + 4) { tokens }

/-- The events of a text up to its end or its first fault. -/
def Event.ofText (t : Text) : List Reading := Event.ofTokens (Token.ofText t)

end LocatedYaml
