import LocatedYaml.Proofs.Document.Building
import LocatedYaml.Proofs.Extent.Span

/-!
# Ranges of loaded documents

No range of a loaded document leaves the source, and none ends before it starts when no end of a collection was found
before its start.  A block collection has no bracket to end at: it ends with the last of its children, or right behind
its start (`blockEnd`), so it covers what is inside up to the next flow collection (`ranges_of_loading`).

What holds of a node when it is completed is `Node.Placed`.  It needs the children to be placed as well, and it needs
to know where the starts of the open collections were found, which a builder remembers as byte offsets only
(`Builder.starts_of_move`).
-/

namespace LocatedYaml

/-! ### Ends and starts of collections -/

/-- The event closes a collection. -/
def Event.closes : Event → Bool
  | .sequenceEnd | .mappingEnd => true
  | _ => false

/-- The places of the starts of the collections that are open after an event, innermost first. -/
def MarkedEvent.nestStart (e : MarkedEvent) (starts : List Nat) : List Nat :=
  match e.event with
  | .sequenceStart _ | .mappingStart _ => e.index :: starts
  | .sequenceEnd | .mappingEnd => starts.tail
  | _ => starts

/-- No event that closes a collection is found before the start of that collection; `starts` are the places of the
starts of those that are open already. -/
def EndsBehindStarts (starts : List Nat) : List MarkedEvent → Prop
  | [] => True
  | e :: events => (e.event.closes → starts.headD 0 ≤ e.index) ∧ EndsBehindStarts (e.nestStart starts) events

instance decidableEndsBehindStarts : ∀ starts events, Decidable (EndsBehindStarts starts events)
  | _, [] => isTrue trivial
  | starts, e :: events =>
    have := decidableEndsBehindStarts (e.nestStart starts) events
    inferInstanceAs (Decidable (_ ∧ _))

/-! ### How a node is placed -/

namespace Node

/-- A collection without a closing bracket. -/
def isBlock : Node → Bool
  | .mapping _ flow _ _ | .sequence _ flow _ _ => !flow
  | _ => false

/-- The key of the first pair of a mapping. -/
def firstKey? : Node → Option Node
  | .mapping pairs _ _ _ => pairs.head?.map Pair.key
  | _ => none

/-- The range covers the children of the node that are in the source, and reaches no further than it must. -/
structure Encloses (range : Range) (node : Node) : Prop where
  stop_le : ∀ child ∈ node.children, ∀ r, child.range = some r → r.stop ≤ range.stop
  start_le : ∀ key r, node.firstKey? = some key → key.range = some r → range.start ≤ r.start
  tight : range.stop ≤ range.start + 1 ∨ ∃ child ∈ node.children, ∃ r, child.range = some r ∧ range.stop ≤ r.stop

/-- The range of the node stays in a source of `length` bytes, and is that of a block collection if the node is one.
Under the condition `forward` it does not end before it starts. -/
structure Placed (length : Nat) (forward : Prop) (node : Node) : Prop where
  bounded : ∀ r, node.range = some r → r.start ≤ length ∧ r.stop ≤ length
  ordered : forward → ∀ r, node.range = some r → r.start ≤ r.stop
  encloses : node.isBlock → ∃ r, node.range = some r ∧ Encloses r node

/-- `inner.BlockWithin outer`: `inner` stands inside `outer`, and all collections around it up to `outer` are block
collections. -/
inductive BlockWithin : Node → Node → Prop where
  | child {inner outer : Node} (hblock : outer.isBlock) (hchild : inner ∈ outer.children) : BlockWithin inner outer
  | deeper {inner child outer : Node} (hblock : outer.isBlock) (hchild : child ∈ outer.children)
    (h : BlockWithin inner child) : BlockWithin inner outer

theorem BlockWithin.isBlock {inner outer : Node} (h : BlockWithin inner outer) : outer.isBlock := by
  cases h with
  | child hblock => exact hblock
  | deeper hblock => exact hblock

/-- Placed block collections cover what they hold, through any number of block collections. -/
theorem BlockWithin.stop_le {length : Nat} {forward : Prop} {inner outer : Node} {r r' : Range}
    (h : BlockWithin inner outer) (hplaced : outer.Everywhere (Placed length forward)) (hinner : inner.range = some r')
    (houter : outer.range = some r) : r'.stop ≤ r.stop := by
  induction h generalizing r with
  | child hblock hchild =>
    obtain ⟨r₀, hr₀, hencloses⟩ := hplaced.self.encloses hblock
    obtain rfl := Option.some.inj (hr₀.symm.trans houter)
    exact hencloses.stop_le _ hchild r' hinner
  | @deeper child outer hblock hchild h ih =>
    have hplacedChild := hplaced.child hchild
    obtain ⟨r₀, hr₀, hencloses⟩ := hplaced.self.encloses hblock
    obtain rfl := Option.some.inj (hr₀.symm.trans houter)
    obtain ⟨rc, hrc, -⟩ := hplacedChild.self.encloses h.isBlock
    exact Nat.le_trans (ih hplacedChild hrc) (hencloses.stop_le child hchild rc hrc)

end Node

/-! ### Ends of collections -/

section CollectionEnd

variable {source : Text} {start close : Nat} {children : List Node} {bracket : Char} {flow : Bool}

/-- A block collection reaches one byte behind its start, or to the last of the ends of its children. -/
theorem blockEnd_cases (source : Text) (start : Nat) (children : List Node) :
    (∀ child ∈ children, child.range = none) ∧
        blockEnd source start children = max start (min (start + 1) source.byteLength) ∨
      ∃ last ∈ children, ∃ r, last.range = some r ∧
        (∀ child ∈ children, ∀ r', child.range = some r' → r'.stop ≤ r.stop) ∧
        blockEnd source start children = max r.stop (min (start + 1) source.byteLength) := by
  have hmem : ∀ n, n ∈ (children.filterMap fun child => child.range.map Range.stop) ↔
      ∃ child ∈ children, ∃ r, child.range = some r ∧ r.stop = n := fun n => by simp
  cases hmax : (children.filterMap fun child => child.range.map Range.stop).max? with
  | none =>
    have hnil := List.max?_eq_none_iff.1 hmax
    refine Or.inl ⟨fun child hchild => Option.eq_none_iff_forall_ne_some.2 fun r hr => ?_, ?_⟩
    · have := (hmem r.stop).2 ⟨child, hchild, r, hr, rfl⟩
      rw [hnil] at this
      cases this
    · simp only [blockEnd, hmax, Option.getD_none]
  | some n =>
    obtain ⟨hn, hle⟩ := List.max?_eq_some_iff.1 hmax
    obtain ⟨last, hlast, r, hr, rfl⟩ := (hmem n).1 hn
    refine Or.inr ⟨last, hlast, r, hr, fun child hchild r' hr' => hle _ ((hmem _).2 ⟨child, hchild, r', hr', rfl⟩), ?_⟩
    simp only [blockEnd, hmax, Option.getD_some]

theorem stop_le_blockEnd (source : Text) (start : Nat) {child : Node} {r : Range} (hchild : child ∈ children)
    (hr : child.range = some r) : r.stop ≤ blockEnd source start children := by
  rcases blockEnd_cases source start children with ⟨hnone, -⟩ | ⟨last, -, r', -, hle, heq⟩
  · rw [hnone child hchild] at hr
    cases hr
  · have := hle child hchild r hr
    omega

theorem blockEnd_tight (source : Text) (start : Nat) (children : List Node) :
    blockEnd source start children ≤ start + 1 ∨
      ∃ child ∈ children, ∃ r, child.range = some r ∧ blockEnd source start children ≤ r.stop := by
  rcases blockEnd_cases source start children with ⟨-, heq⟩ | ⟨last, hlast, r, hr, -, heq⟩
  · exact Or.inl (by omega)
  · rcases Nat.le_total (min (start + 1) source.byteLength) r.stop with h | h
    · exact Or.inr ⟨last, hlast, r, hr, by omega⟩
    · exact Or.inl (by omega)

theorem le_blockEnd (hstart : start ≤ source.byteLength) (children : List Node) :
    start ≤ blockEnd source start children := by
  rcases blockEnd_cases source start children with ⟨-, heq⟩ | ⟨_, -, _, -, -, heq⟩ <;> omega

theorem blockEnd_le (hstart : start ≤ source.byteLength)
    (hchildren : ∀ child ∈ children, ∀ r, child.range = some r → r.stop ≤ source.byteLength) :
    blockEnd source start children ≤ source.byteLength := by
  rcases blockEnd_cases source start children with ⟨-, heq⟩ | ⟨last, hlast, r, hr, -, heq⟩
  · omega
  · have := hchildren last hlast r hr
    omega

theorem collectionEnd_le (hstart : start ≤ source.byteLength) (hclose : source.IsBoundary close)
    (hchildren : ∀ child ∈ children, ∀ r, child.range = some r → r.stop ≤ source.byteLength) :
    collectionEnd source flow start close bracket children ≤ source.byteLength := by
  unfold collectionEnd
  split
  · rename_i stop hstop
    split at hstop
    · exact (Extent.flowEnd?_isSpan hclose hstop).stop_le
    · cases hstop
  · exact blockEnd_le hstart hchildren

theorem le_collectionEnd (hstart : start ≤ source.byteLength) (hclose : source.IsBoundary close)
    (hforward : flow → start ≤ close) (children : List Node) :
    start ≤ collectionEnd source flow start close bracket children := by
  unfold collectionEnd
  split
  · rename_i stop hstop
    split at hstop
    · rename_i hflow
      exact Nat.le_trans (hforward hflow) (Extent.flowEnd?_isSpan hclose hstop).le
    · cases hstop
  · exact le_blockEnd hstart children

end CollectionEnd

/-! ### Completed nodes are placed -/

namespace Builder

variable {source : Text} {version : Version} {b b' : Builder} {e : MarkedEvent} {forward : Prop}

/-- The builder remembers the starts of the open collections. -/
theorem starts_of_move {starts : List Nat} (h : Move source version b e b')
    (hb : b.frames.map Frame.start = starts.map source.offsetOfIndex) :
    b'.frames.map Frame.start = (e.nestStart starts).map source.offsetOfIndex := by
  cases h with
  | completes hc =>
    rw [map_frames_complete Frame.start_push]
    cases completes_of_completion? hc with
    | aliasOf | scalar => exact hb
    | sequence hframes | mapping hframes =>
      rw [hframes] at hb
      rw [MarkedEvent.nestStart, List.map_tail, ← hb]
      rfl
  | @opens frame ho =>
    obtain ⟨event, index⟩ := e
    cases event with
    | sequenceStart anchor | mappingStart anchor =>
      obtain rfl := Option.some.inj ho
      exact congrArg (source.offsetOfIndex index :: ·) hb
    | _ => cases ho
  | starts he => rwa [MarkedEvent.nestStart, he]
  | stays he =>
    obtain ⟨event, index⟩ := e
    cases event with
    | nothing | streamStart | streamEnd | documentEnd => exact hb
    | _ => cases he

theorem scalarRange_isSpan {found : Nat} {style : Scalar.Style} {value : Text} {r : Range}
    (h : source.IsBoundary found) (hr : scalarRange source found style value = some r) :
    source.IsSpan r.start r.stop := by
  unfold scalarRange at hr
  split at hr
  · cases hr
  · obtain rfl := Option.some.inj hr
    refine Extent.scalarEnd_isSpan ?_ style value
    split
    · exact (Extent.blockScalarStart_isSpan h).isBoundary_start
    · exact h

/-- A node whose range is a span of the source, if it has one, and that is no block collection. -/
private theorem placed_of_isSpan {node : Node} (hspan : ∀ r, node.range = some r → source.IsSpan r.start r.stop)
    (hblock : node.isBlock = false) : node.Placed source.byteLength forward := by
  refine ⟨fun r hr => ⟨(hspan r hr).isBoundary_start.le, (hspan r hr).stop_le⟩, fun _ r hr => (hspan r hr).le, ?_⟩
  rw [hblock]
  nofun

/-- The range of a collection that starts at `start`, before or at the place `found` where it was found. -/
private theorem placed_collection {node : Node} {flow : Bool} {start found close : Nat} {bracket : Char}
    (hrange : node.range = some ⟨start, collectionEnd source flow start close bracket node.children⟩)
    (hflow : node.isBlock = !flow) (hfound : source.IsBoundary found) (hclose : source.IsBoundary close)
    (hstart : start ≤ found) (hforward : forward → found ≤ close)
    (hkey : flow = false → ∀ key r, node.firstKey? = some key → key.range = some r → start ≤ r.start)
    (hchildren : ∀ child ∈ node.children, child.Placed source.byteLength forward) :
    node.Placed source.byteLength forward := by
  have hle : start ≤ source.byteLength := Nat.le_trans hstart hfound.le
  refine ⟨fun r hr => ?_, fun hf r hr => ?_, fun hblock => ⟨_, hrange, ?_⟩⟩
  · obtain rfl := Option.some.inj (hrange.symm.trans hr)
    exact ⟨hle, collectionEnd_le hle hclose fun child hchild r hr => ((hchildren child hchild).bounded r hr).2⟩
  · obtain rfl := Option.some.inj (hrange.symm.trans hr)
    exact le_collectionEnd hle hclose (fun _ => Nat.le_trans hstart (hforward hf)) node.children
  · obtain rfl : flow = false := by simpa [hflow] using hblock
    exact ⟨fun child hchild r hr => stop_le_blockEnd source start hchild hr, hkey rfl,
      blockEnd_tight source start node.children⟩

/-- Where a mapping starts. -/
private theorem mappingNode_range (source : Text) (found close : Nat) (anchor : Option AnchorId)
    (pairs : List (Pair Node)) : ∃ flow start, start ≤ found ∧
      mappingNode source found close anchor pairs = .mapping pairs flow anchor
        (some ⟨start, collectionEnd source flow start close '}' (pairs.flatMap fun pair => [pair.key, pair.value])⟩) ∧
      (flow = false → ∀ pair r, pairs.head? = some pair → pair.key.range = some r → start ≤ r.start) := by
  unfold mappingNode
  refine ⟨_, _, ?_, rfl, ?_⟩
  · split
    · split
      · exact Nat.le_refl _
      · exact Nat.min_le_left ..
    · exact Nat.le_refl _
  · intro hflow pair r hpair hr
    rw [hpair, Option.bind_some, hr]
    change (if _ then found else min found r.start) ≤ r.start
    rw [if_neg (of_decide_eq_false hflow)]
    exact Nat.min_le_right ..

/-- Where the innermost open collection was found, and that its end is not before. -/
private theorem start_of_frames {frame : Frame} {frames : List Frame} {starts : List Nat}
    (hframes : b.frames = frame :: frames) (hstarts : b.frames.map Frame.start = starts.map source.offsetOfIndex)
    (index : Nat) :
    source.IsBoundary frame.start ∧ (starts.headD 0 ≤ index → frame.start ≤ source.offsetOfIndex index) := by
  rw [hframes, List.map_cons] at hstarts
  cases starts with
  | nil => cases hstarts
  | cons start starts =>
    obtain ⟨hstart, -⟩ := List.cons.inj hstarts
    rw [hstart]
    exact ⟨source.isBoundary_offsetOfIndex start, fun hle => source.offsetOfIndex_mono hle⟩

theorem placed_of_completion? {frames : List Frame} {node : Node} {starts : List Nat}
    (hc : b.completion? source version e = some (frames, node))
    (hstarts : b.frames.map Frame.start = starts.map source.offsetOfIndex)
    (hforward : forward → e.event.closes → starts.headD 0 ≤ e.index)
    (hchildren : ∀ child ∈ node.children, child.Placed source.byteLength forward) :
    node.Placed source.byteLength forward := by
  have hclose := source.isBoundary_offsetOfIndex e.index
  cases completes_of_completion? hc with
  | aliasOf id index =>
    refine placed_of_isSpan (fun r hr => ?_) rfl
    obtain rfl := Option.some.inj hr
    exact Extent.aliasEnd_isSpan hclose
  | scalar h => exact placed_of_isSpan (fun r hr => scalarRange_isSpan hclose hr) rfl
  | @sequence start index anchor items _ hframes =>
    obtain ⟨hfound, hle⟩ := start_of_frames hframes hstarts index
    exact placed_collection rfl rfl hfound hclose (Nat.le_refl _)
      (fun hf => hle (hforward hf rfl)) (fun _ _ _ hkey => nomatch hkey) hchildren
  | @mapping start index anchor pairs pending _ hframes =>
    obtain ⟨hfound, hle⟩ := start_of_frames hframes hstarts index
    obtain ⟨flow, start', hstart', heq, hkey⟩ := mappingNode_range source start (source.offsetOfIndex index) anchor
      (closedPairs pairs pending)
    rw [heq] at hchildren ⊢
    refine placed_collection rfl rfl hfound hclose hstart' (fun hf => hle (hforward hf rfl)) ?_ hchildren
    intro hflow key r hfirst hr
    obtain ⟨pair, hpair, rfl⟩ := Option.map_eq_some_iff.1 hfirst
    exact hkey hflow pair r hpair hr

private theorem placed_absent (source : Text) (forward : Prop) :
    Node.absent.Everywhere (Node.Placed source.byteLength forward) :=
  .of_children (placed_of_isSpan (fun _ hr => nomatch hr) rfl) fun _ hchild => nomatch hchild

theorem placed_of_run {events : List MarkedEvent} (h : run source version {} events = .ok b) :
    b.Holds (Node.Everywhere (Node.Placed source.byteLength (EndsBehindStarts [] events))) := by
  let motive (rest : List MarkedEvent) (b : Builder) : Prop :=
    ∃ starts, b.frames.map Frame.start = starts.map source.offsetOfIndex ∧
      (EndsBehindStarts [] events → EndsBehindStarts starts rest) ∧
      b.Holds (Node.Everywhere (Node.Placed source.byteLength (EndsBehindStarts [] events)))
  obtain ⟨-, -, -, hb⟩ : motive [] b := by
    refine run_induction ?_ h ⟨[], rfl, id, holds_empty⟩
    rintro e rest b b' hmove ⟨starts, hstarts, hforward, hb⟩
    refine ⟨e.nestStart starts, starts_of_move hmove hstarts, fun hf => (hforward hf).2, ?_⟩
    refine hb.move (placed_absent source _) (fun frames node hc hchildren => ?_) hmove
    refine .of_children (placed_of_completion? hc hstarts (fun hf => (hforward hf).1) ?_) hchildren
    exact fun child hchild => (hchildren child hchild).self
  exact hb

end Builder

/-! ### Loaded documents -/

/-- The node stands in the contents or in a node that an anchor is resolved to. -/
def Document.Contains (doc : Document) (node : Node) : Prop :=
  (∃ contents, doc.contents = some contents ∧ node.Within contents) ∨
    ∃ id anchored, doc.resolve? id = some anchored ∧ node.Within anchored

/-- What holds everywhere in the nodes that a builder holds at the end holds everywhere in the nodes of its document. -/
theorem Document.Contains.everywhere {P : Node → Prop} {b : Builder} {version : Version} {node : Node}
    (hnode : Document.Contains ⟨b.root, version, b.anchors⟩ node) (hb : b.Holds (Node.Everywhere P)) :
    node.Everywhere P := by
  intro inner hinner
  rcases hnode with ⟨contents, hcontents, hw⟩ | ⟨id, anchored, hresolve, hw⟩
  · exact hb.root contents hcontents inner (hinner.trans hw)
  · exact hb.anchors id anchored hresolve inner (hinner.trans hw)

theorem Document.placed_of_ofEvents {source : Text} {version : Version} {events : List MarkedEvent} {doc : Document}
    {node : Node} (h : ofEvents source version events = .ok doc) (hnode : doc.Contains node) :
    node.Everywhere (Node.Placed source.byteLength (EndsBehindStarts [] events)) := by
  obtain ⟨b, hrun, -, rfl⟩ := ofEvents_eq_ok.1 h
  exact hnode.everywhere (Builder.placed_of_run hrun)

/-- When every collection ends behind its start, the ranges of all nodes run forward inside the source.  The range of
a block collection covers what stands in it, through any number of block collections, starts no later than its first
key if it is a mapping, and ends with its last child or at most one byte behind its start. -/
theorem ranges_of_loading {source : Text} {chosen : Version} {events : List MarkedEvent} {doc : Document} {node : Node}
    (hload : Document.ofReadings source chosen (events.map .ok) = .ok doc) (hforward : EndsBehindStarts [] events)
    (hnode : doc.Contains node) :
    (∀ r, node.range = some r → r.start ≤ r.stop ∧ r.stop ≤ source.byteLength) ∧
    (node.isBlock → ∃ r, node.range = some r ∧
      (∀ (inner : Node) (r' : Range), inner.BlockWithin node → inner.range = some r' → r'.stop ≤ r.stop) ∧
      (∀ (key : Node) (r' : Range), node.firstKey? = some key → key.range = some r' → r.start ≤ r'.start) ∧
      (r.stop ≤ r.start + 1 ∨ ∃ child ∈ node.children, ∃ r', child.range = some r' ∧ r.stop ≤ r'.stop)) := by
  rw [Document.ofReadings_map_ok] at hload
  have heverywhere := Document.placed_of_ofEvents hload hnode
  have hplaced := heverywhere.self
  refine ⟨fun r hr => ⟨hplaced.ordered hforward r hr, (hplaced.bounded r hr).2⟩, fun hblock => ?_⟩
  obtain ⟨r, hr, hencloses⟩ := hplaced.encloses hblock
  exact ⟨r, hr, fun inner r' hinner hr' => hinner.stop_le heverywhere hr' hr, hencloses.start_le, hencloses.tight⟩

/-- `k:\n- &x [v]\n`: a block mapping, found at its colon, around a block sequence around a flow sequence. -/
theorem ranges_of_loading_of_nested_blocks :
    let source : Text := "k:\n- &x [v]\n".toList
    let events : List MarkedEvent :=
      [⟨.documentStart, 0⟩, ⟨.mappingStart 0, 1⟩, ⟨.scalar ['k'] .plain 0 none, 0⟩, ⟨.sequenceStart 0, 3⟩,
        ⟨.sequenceStart 1, 8⟩, ⟨.scalar ['v'] .plain 0 none, 9⟩, ⟨.sequenceEnd, 10⟩, ⟨.sequenceEnd, 12⟩,
        ⟨.mappingEnd, 12⟩, ⟨.documentEnd, 12⟩]
    ∃ doc contents, Document.ofReadings source .v1_2 (events.map .ok) = .ok doc ∧ EndsBehindStarts [] events ∧
      doc.Contains contents ∧ contents.isBlock ∧ contents.range = some ⟨0, 11⟩ ∧
      (∀ (inner : Node) (r : Range), inner.BlockWithin contents → inner.range = some r → r.stop ≤ 11) := by
  intro source events
  obtain ⟨doc, contents, hload, hcontents, hblock, hrange⟩ : ∃ doc contents,
      Document.ofReadings source .v1_2 (events.map .ok) = .ok doc ∧ doc.contents = some contents ∧
      contents.isBlock ∧ contents.range = some ⟨0, 11⟩ := ⟨_, _, rfl, rfl, rfl, rfl⟩
  have hforward : EndsBehindStarts [] events := by decide
  have hnode : doc.Contains contents := Or.inl ⟨contents, hcontents, .refl _⟩
  obtain ⟨-, hranges⟩ := ranges_of_loading hload hforward hnode
  obtain ⟨r, hr, hcovers, -, -⟩ := hranges hblock
  obtain rfl := Option.some.inj (hr.symm.trans hrange)
  exact ⟨doc, contents, hload, hforward, hnode, hblock, hrange, hcovers⟩

end LocatedYaml
