import LocatedYaml.Document.Basic
import LocatedYaml.Document.LoadError
import LocatedYaml.Extent.Basic
import LocatedYaml.Scalar.Schema

/-!
# Building a document from events

The builder keeps the collections that are still open, innermost first. A node that is complete goes into the
innermost of them, or becomes the root. The first event that cannot be taken ends the building.
-/

namespace LocatedYaml

/-- A collection that is still open. The children are held latest first. -/
inductive Frame where
  | sequence (start : Nat) (anchor : Option AnchorId) (items : List Node)
  /-- `pending` is a key that still waits for its value. -/
  | mapping (start : Nat) (anchor : Option AnchorId) (pairs : List (Pair Node)) (pending : Option Node)

/-- The frame with one more child. In a mapping, keys and values alternate. -/
def Frame.push (node : Node) : Frame → Frame
  | .sequence start anchor items => .sequence start anchor (node :: items)
  | .mapping start anchor pairs none => .mapping start anchor pairs (some node)
  | .mapping start anchor pairs (some key) => .mapping start anchor (⟨key, node⟩ :: pairs) none

structure Builder where
  frames : List Frame := []
  root : Option Node := none
  anchors : AnchorTable := .empty
  /-- A document has begun. -/
  started : Bool := false

namespace Builder

/-- The builder after a node is complete. Only the first node outside all collections becomes the root. -/
def complete (b : Builder) (node : Node) : Builder :=
  let b := { b with anchors := b.anchors.record node }
  match b.frames with
  | [] => { b with root := b.root.or (some node) }
  | frame :: frames => { b with frames := frame.push node :: frames }

def opened (b : Builder) (frame : Frame) : Builder := { b with frames := frame :: b.frames }

end Builder

/-! ### Nodes from events -/

/-- Anchor 0 is no anchor. -/
def anchorOf (id : AnchorId) : Option AnchorId := if id = 0 then none else some id

/-- The range of a scalar found at byte offset `found`. Block scalars are found at their content and start at their
header. An empty plain scalar does not stand in the source. -/
def scalarRange (source : Text) (found : Nat) (style : Scalar.Style) (value : Text) : Option Range :=
  if style = .plain ∧ value = [] then none
  else
    let start := if style.isBlock then Extent.blockScalarStart source found else found
    some ⟨start, Extent.scalarEnd source start style value⟩

/-- The node of a scalar event at byte offset `found`. -/
def scalarNode (source : Text) (version : Version) (found : Nat) (value : Text) (style : Scalar.Style)
    (anchor : AnchorId) (tag : Option Tag) : Except LoadError Node :=
  let range := scalarRange source found style value
  let tag := tag.map fun tag => Scalar.fullTag tag.handle tag.suffix
  match Scalar.resolve version style tag value with
  | some resolved => .ok (.scalar ⟨resolved, value, style, tag, anchorOf anchor, range⟩)
  | none => .error (.invalidTaggedScalar (tag.getD []) value range)

/-- A collection without a closing bracket ends where the last of its children in the source ends, one byte behind
its start at least. -/
def blockEnd (source : Text) (start : Nat) (children : List Node) : Nat :=
  let ends := children.filterMap fun child => child.range.map Range.stop
  max (ends.max?.getD start) (min (start + 1) source.byteLength)

/-- The end of a collection: behind its closing bracket, when it is a flow collection and the bracket is there. -/
def collectionEnd (source : Text) (flow : Bool) (start close : Nat) (bracket : Char) (children : List Node) : Nat :=
  match if flow then Extent.flowEnd? source close bracket else none with
  | some stop => stop
  | none => blockEnd source start children

/-- The sequence that starts at `start` and whose end was found at `close`. -/
def sequenceNode (source : Text) (start close : Nat) (anchor : Option AnchorId) (items : List Node) : Node :=
  let flow := (source.restFrom start).head? = some '['
  .sequence items flow anchor (some ⟨start, collectionEnd source flow start close ']' items⟩)

/-- The mapping that was found at `found` and whose end was found at `close`. A block mapping is found behind its
first key and starts at that key. -/
def mappingNode (source : Text) (found close : Nat) (anchor : Option AnchorId) (pairs : List (Pair Node)) : Node :=
  let flow := (source.restFrom found).head? = some '{'
  let start :=
    match pairs.head?.bind fun pair => pair.key.range with
    | some range => if flow then found else min found range.start
    | none => found
  let children := pairs.flatMap fun pair => [pair.key, pair.value]
  .mapping pairs flow anchor (some ⟨start, collectionEnd source flow start close '}' children⟩)

/-- The pairs of a mapping in their order; a key that still waits gets an absent value. -/
def closedPairs (pairs : List (Pair Node)) (pending : Option Node) : List (Pair Node) :=
  pairs.reverse ++ (pending.map fun key => ⟨key, .absent⟩).toList

namespace Builder

/-- The builder after one more event. -/
def step (source : Text) (version : Version) (b : Builder) (e : MarkedEvent) : Except LoadError Builder :=
  let found := source.offsetOfIndex e.index
  match e.event with
  | .nothing | .streamStart | .streamEnd | .documentEnd => .ok b
  | .documentStart => if b.started then .error .multipleDocuments else .ok { b with started := true }
  | .aliasOf id => .ok (b.complete (.aliasOf id (some ⟨found, Extent.aliasEnd source found⟩)))
  | .scalar value style anchor tag => (scalarNode source version found value style anchor tag).map b.complete
  | .sequenceStart anchor => .ok (b.opened (.sequence found (anchorOf anchor) []))
  | .mappingStart anchor => .ok (b.opened (.mapping found (anchorOf anchor) [] none))
  | .sequenceEnd =>
    match b.frames with
    | .sequence start anchor items :: frames =>
      .ok (complete { b with frames } (sequenceNode source start found anchor items.reverse))
    | _ => .error (.unbalanced .sequenceEnd)
  | .mappingEnd =>
    match b.frames with
    | .mapping start anchor pairs pending :: frames =>
      .ok (complete { b with frames } (mappingNode source start found anchor (closedPairs pairs pending)))
    | _ => .error (.unbalanced .mappingEnd)

/-- The document, when no collection is left open. -/
def finish (version : Version) (b : Builder) : Except LoadError Document :=
  if b.frames.isEmpty then .ok ⟨b.root, version, b.anchors⟩ else .error (.unbalanced .unterminated)

end Builder

namespace Document

/-- The document that a row of events describes. -/
def ofEvents (source : Text) (version : Version) (events : List MarkedEvent) : Except LoadError Document := do
  let b ← events.foldlM (Builder.step source version) {}
  b.finish version

/-- The document that was read from `source`. A failure of reading comes before all others, wherever it is. -/
def ofReadings (source : Text) (chosen : Version) (readings : List Reading) : Except LoadError Document :=
  match readings.mapM id with
  | .error error => .error (.malformed error)
  | .ok events => ofEvents source (Version.effective source chosen) events

end Document

end LocatedYaml
