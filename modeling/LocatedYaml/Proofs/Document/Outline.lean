import LocatedYaml.Proofs.Document.Building

/-!
# Trees written as events

An outline is a tree with what every event of it carries.  Its events, run by a builder, complete one node that the
outline describes, whatever the builder holds already (`Builder.run_events`), so a document with these events loads,
with that node as its contents (`loading_of_outline`).

The description spells out the anchor, the tag in its full form and the absent value of a node, and does not take them
from the functions that the builder makes them with.

The induction carries the events that follow: children are read in front of the end of their collection.  Inside a
mapping the builder waits for a key before every pair and for the end, or for the value of the last key, behind them.
-/

namespace LocatedYaml

/-- A tag as one text: `!!` stands for what the tags of YAML begin with, any other handle for itself. -/
def Tag.writtenOut (tag : Tag) : Text :=
  if tag.handle = "!!".toList then "tag:yaml.org,2002:".toList ++ tag.suffix else tag.handle ++ tag.suffix

theorem Tag.full_eq_writtenOut : Tag.full = Tag.writtenOut := by
  funext tag
  rw [full, Scalar.fullTag, writtenOut]
  rfl

/-- A tree to be written as events, with the tags, the anchors and the places of the events. -/
inductive Outline where
  | scalar (value : Text) (style : Scalar.Style) (anchor : AnchorId) (tag : Option Tag) (index : Nat)
  | aliasOf (anchor : AnchorId) (index : Nat)
  | sequence (items : List Outline) (anchor : AnchorId) (start close : Nat)
  /-- `last` is a key behind all pairs, which has no value. -/
  | mapping (pairs : List (Pair Outline)) (last : Option Outline) (anchor : AnchorId) (start close : Nat)

namespace Outline

mutual

/-- The events of a tree, in the order of the source. -/
def events : Outline → List MarkedEvent
  | .scalar value style anchor tag index => [⟨.scalar value style anchor tag, index⟩]
  | .aliasOf anchor index => [⟨.aliasOf anchor, index⟩]
  | .sequence items anchor start close =>
    ⟨.sequenceStart anchor, start⟩ :: (eventsOfItems items ++ [⟨.sequenceEnd, close⟩])
  | .mapping pairs last anchor start close =>
    ⟨.mappingStart anchor, start⟩ :: (eventsOfPairs pairs ++ (eventsOfLast last ++ [⟨.mappingEnd, close⟩]))

def eventsOfItems : List Outline → List MarkedEvent
  | [] => []
  | item :: items => item.events ++ eventsOfItems items

def eventsOfPairs : List (Pair Outline) → List MarkedEvent
  | [] => []
  | ⟨key, value⟩ :: pairs => key.events ++ (value.events ++ eventsOfPairs pairs)

def eventsOfLast : Option Outline → List MarkedEvent
  | none => []
  | some key => key.events

end

/-- The events of a stream with the tree as its document, and the places of its first two and its last two events. -/
def stream (outline : Outline) (streamStart documentStart documentEnd streamEnd : Nat) : List MarkedEvent :=
  ⟨.streamStart, streamStart⟩ :: ⟨.documentStart, documentStart⟩ ::
    (outline.events ++ [⟨.documentEnd, documentEnd⟩, ⟨.streamEnd, streamEnd⟩])

mutual

/-- The node is the tree: the same kinds of nodes in the same order, with the texts, styles, tags and anchors of the
events and the values that the version gives to the scalars. The anchor 0 of an event is no anchor. -/
inductive Describes (version : Version) : Outline → Node → Prop where
  | scalar {value : Text} {style : Scalar.Style} {anchor : AnchorId} {tag : Option Tag} {index : Nat}
    {resolved : Scalar.Value} {range : Option Range}
    (h : Scalar.resolve version style (tag.map Tag.writtenOut) value = some resolved) :
    Describes version (.scalar value style anchor tag index)
      (.scalar ⟨resolved, value, style, tag.map Tag.writtenOut, if anchor = 0 then none else some anchor, range⟩)
  | aliasOf {anchor : AnchorId} {index : Nat} {range : Option Range} :
    Describes version (.aliasOf anchor index) (.aliasOf anchor range)
  | sequence {items : List Outline} {nodes : List Node} {anchor : AnchorId} {start close : Nat} {flow : Bool}
    {range : Option Range} (h : DescribesItems version items nodes) :
    Describes version (.sequence items anchor start close)
      (.sequence nodes flow (if anchor = 0 then none else some anchor) range)
  | mapping {pairs : List (Pair Outline)} {last : Option Outline} {nodes : List (Pair Node)} {anchor : AnchorId}
    {start close : Nat} {flow : Bool} {range : Option Range} (h : DescribesPairs version pairs last nodes) :
    Describes version (.mapping pairs last anchor start close)
      (.mapping nodes flow (if anchor = 0 then none else some anchor) range)

inductive DescribesItems (version : Version) : List Outline → List Node → Prop where
  | nil : DescribesItems version [] []
  | cons {item : Outline} {items : List Outline} {node : Node} {nodes : List Node}
    (hitem : Describes version item node) (h : DescribesItems version items nodes) :
    DescribesItems version (item :: items) (node :: nodes)

/-- A last key without a value has an absent value: null, of no text, without tag, anchor and range. -/
inductive DescribesPairs (version : Version) : List (Pair Outline) → Option Outline → List (Pair Node) → Prop where
  | nil : DescribesPairs version [] none []
  | last {key : Outline} {node : Node} (hkey : Describes version key node) :
    DescribesPairs version [] (some key) [⟨node, .scalar ⟨.null, [], .plain, none, none, none⟩⟩]
  | cons {key value : Outline} {pairs : List (Pair Outline)} {last : Option Outline} {keyNode valueNode : Node}
    {nodes : List (Pair Node)} (hkey : Describes version key keyNode) (hvalue : Describes version value valueNode)
    (h : DescribesPairs version pairs last nodes) :
    DescribesPairs version (⟨key, value⟩ :: pairs) last (⟨keyNode, valueNode⟩ :: nodes)

end

end Outline

/-- The text of a tagged scalar does not contradict its tag. -/
def Event.agrees (version : Version) : Event → Bool
  | .scalar value style _ (some tag) => (Scalar.resolve version style (some tag.writtenOut) value).isSome
  | _ => true

theorem Event.exists_resolve_of_agrees {version : Version} {value : Text} {style : Scalar.Style} {anchor : AnchorId}
    {tag : Option Tag} (h : (Event.scalar value style anchor tag).agrees version) :
    ∃ resolved, Scalar.resolve version style (tag.map Tag.writtenOut) value = some resolved := by
  cases tag with
  | none => exact ⟨_, rfl⟩
  | some tag => exact Option.isSome_iff_exists.1 h

namespace Builder

variable {source : Text} {version : Version}

open Outline

mutual

/-- The events of a tree complete a node that the tree describes. -/
theorem run_events : ∀ (outline : Outline) (b : Builder) (rest : List MarkedEvent),
    (∀ e ∈ outline.events, e.event.agrees version) →
    ∃ node anchors, outline.Describes version node ∧
      run source version b (outline.events ++ rest) = run source version (complete { b with anchors } node) rest
  | .scalar value style anchor tag index, b, rest, hagrees => by
    rw [events] at hagrees ⊢
    obtain ⟨resolved, hresolved⟩ := Event.exists_resolve_of_agrees (hagrees _ List.mem_cons_self)
    have hnode : scalarNode source version (source.offsetOfIndex index) value style anchor tag =
        .ok (.scalar ⟨resolved, value, style, tag.map Tag.writtenOut, if anchor = 0 then none else some anchor,
          scalarRange source (source.offsetOfIndex index) style value⟩) := by
      rw [← Tag.full_eq_writtenOut] at hresolved ⊢
      exact scalarNode_of_some hresolved
    have hstep : b.step source version ⟨.scalar value style anchor tag, index⟩ =
        .ok (b.complete (.scalar ⟨resolved, value, style, tag.map Tag.writtenOut,
          if anchor = 0 then none else some anchor,
          scalarRange source (source.offsetOfIndex index) style value⟩)) := by
      simp only [step, hnode, Except.map]
    exact ⟨_, b.anchors, .scalar hresolved, run_cons_of_step hstep⟩
  | .aliasOf anchor index, b, rest, _ => by
    rw [events]
    exact ⟨_, b.anchors, .aliasOf, run_cons_of_step rfl⟩
  | .sequence items anchor start close, b, rest, hagrees => by
    rw [events, List.forall_mem_cons, List.forall_mem_append] at hagrees
    obtain ⟨nodes, anchors, hnodes, hrun⟩ := run_eventsOfItems items b (source.offsetOfIndex start)
      (anchorOf anchor) [] (⟨.sequenceEnd, close⟩ :: rest) hagrees.2.1
    refine ⟨sequenceNode source (source.offsetOfIndex start) (source.offsetOfIndex close) (anchorOf anchor) nodes,
      anchors, .sequence hnodes, ?_⟩
    rw [List.append_nil] at hrun
    have hopen : b.step source version ⟨.sequenceStart anchor, start⟩ =
        .ok (b.opened (.sequence (source.offsetOfIndex start) (anchorOf anchor) [])) := rfl
    rw [events, List.cons_append, run_cons_of_step hopen, List.append_assoc, List.singleton_append, hrun]
    refine run_cons_of_step ?_
    simp [step, opened]
  | .mapping pairs last anchor start close, b, rest, hagrees => by
    rw [events, List.forall_mem_cons, List.forall_mem_append, List.forall_mem_append] at hagrees
    obtain ⟨nodes, nodePairs, pending, anchors, hnodes, hclosed, hrun⟩ := run_eventsOfPairs pairs last b
      (source.offsetOfIndex start) (anchorOf anchor) [] (⟨.mappingEnd, close⟩ :: rest) hagrees.2.1 hagrees.2.2.1
    refine ⟨mappingNode source (source.offsetOfIndex start) (source.offsetOfIndex close) (anchorOf anchor) nodes,
      anchors, .mapping hnodes, ?_⟩
    have hopen : b.step source version ⟨.mappingStart anchor, start⟩ =
        .ok (b.opened (.mapping (source.offsetOfIndex start) (anchorOf anchor) [] none)) := rfl
    rw [events, List.cons_append, run_cons_of_step hopen, List.append_assoc, List.append_assoc, List.singleton_append,
      hrun]
    refine run_cons_of_step ?_
    simp [step, opened, hclosed]
termination_by outline => sizeOf outline

/-- Inside a sequence, the events of items leave it open with one more node for each. -/
theorem run_eventsOfItems : ∀ (items : List Outline) (b : Builder) (start : Nat) (anchor : Option AnchorId)
    (before : List Node) (rest : List MarkedEvent), (∀ e ∈ eventsOfItems items, e.event.agrees version) →
    ∃ nodes anchors, DescribesItems version items nodes ∧
      run source version (b.opened (.sequence start anchor before)) (eventsOfItems items ++ rest) =
        run source version (opened { b with anchors } (.sequence start anchor (nodes.reverse ++ before))) rest
  | [], b, start, anchor, before, rest, _ => ⟨[], b.anchors, .nil, rfl⟩
  | item :: items, b, start, anchor, before, rest, hagrees => by
    rw [eventsOfItems, List.forall_mem_append] at hagrees
    obtain ⟨node, anchors₁, hnode, hitem⟩ := run_events item (b.opened (.sequence start anchor before))
      (eventsOfItems items ++ rest) hagrees.1
    obtain ⟨nodes, anchors₂, hnodes, hitems⟩ := run_eventsOfItems items { b with anchors := anchors₁.record node }
      start anchor (node :: before) rest hagrees.2
    refine ⟨node :: nodes, anchors₂, .cons hnode hnodes, ?_⟩
    rw [eventsOfItems, List.append_assoc, hitem, List.reverse_cons, List.append_assoc]
    exact hitems
termination_by items => sizeOf items

/-- Inside a mapping that waits for a key, the events of pairs and of a last key leave it open with the pairs that
they describe. -/
theorem run_eventsOfPairs : ∀ (pairs : List (Pair Outline)) (last : Option Outline) (b : Builder) (start : Nat)
    (anchor : Option AnchorId) (before : List (Pair Node)) (rest : List MarkedEvent),
    (∀ e ∈ eventsOfPairs pairs, e.event.agrees version) → (∀ e ∈ eventsOfLast last, e.event.agrees version) →
    ∃ nodes nodePairs pending anchors, DescribesPairs version pairs last nodes ∧
      closedPairs nodePairs pending = before.reverse ++ nodes ∧
      run source version (b.opened (.mapping start anchor before none))
          (eventsOfPairs pairs ++ (eventsOfLast last ++ rest)) =
        run source version (opened { b with anchors } (.mapping start anchor nodePairs pending)) rest
  | [], none, b, start, anchor, before, rest, _, _ => ⟨[], before, none, b.anchors, .nil, rfl, rfl⟩
  | [], some key, b, start, anchor, before, rest, _, hlast => by
    rw [eventsOfLast] at hlast
    obtain ⟨node, anchors, hnode, hkey⟩ := run_events key (b.opened (.mapping start anchor before none)) rest hlast
    refine ⟨[⟨node, .absent⟩], before, some node, anchors.record node, .last hnode, rfl, ?_⟩
    rw [eventsOfPairs, List.nil_append, eventsOfLast, hkey]
    rfl
  | ⟨key, value⟩ :: pairs, last, b, start, anchor, before, rest, hagrees, hlast => by
    rw [eventsOfPairs, List.forall_mem_append, List.forall_mem_append] at hagrees
    obtain ⟨keyNode, anchors₁, hkeyNode, hkey⟩ := run_events key (b.opened (.mapping start anchor before none))
      (value.events ++ (eventsOfPairs pairs ++ (eventsOfLast last ++ rest))) hagrees.1
    obtain ⟨valueNode, anchors₂, hvalueNode, hvalue⟩ := run_events value
      (opened { b with anchors := anchors₁.record keyNode } (.mapping start anchor before (some keyNode)))
      (eventsOfPairs pairs ++ (eventsOfLast last ++ rest)) hagrees.2.1
    obtain ⟨nodes, nodePairs, pending, anchors₃, hnodes, hclosed, hpairs⟩ := run_eventsOfPairs pairs last
      { b with anchors := anchors₂.record valueNode } start anchor (⟨keyNode, valueNode⟩ :: before) rest hagrees.2.2
      hlast
    refine ⟨⟨keyNode, valueNode⟩ :: nodes, nodePairs, pending, anchors₃, .cons hkeyNode hvalueNode hnodes, ?_, ?_⟩
    · rw [hclosed, List.reverse_cons, List.append_assoc, List.singleton_append]
    · rw [eventsOfPairs, List.append_assoc, List.append_assoc, hkey]
      exact hvalue.trans hpairs
termination_by pairs last => sizeOf pairs + sizeOf last

end

end Builder

/-- Where no text contradicts its tag, the events of a tree load as this tree. -/
theorem loading_of_outline (source : Text) (chosen : Version) (outline : Outline)
    (streamStart documentStart documentEnd streamEnd : Nat)
    (hagrees : ∀ e ∈ outline.events, e.event.agrees (Version.effective source chosen)) :
    ∃ doc contents, Document.ofReadings source chosen
        ((outline.stream streamStart documentStart documentEnd streamEnd).map .ok) = .ok doc ∧
      doc.contents = some contents ∧ outline.Describes (Version.effective source chosen) contents := by
  obtain ⟨node, anchors, hnode, hrun⟩ := Builder.run_events outline { started := true }
    [⟨.documentEnd, documentEnd⟩, ⟨.streamEnd, streamEnd⟩] hagrees
  refine ⟨⟨some node, Version.effective source chosen, anchors.record node⟩, node, ?_, rfl, hnode⟩
  rw [Document.ofReadings_map_ok, Document.ofEvents_eq_ok]
  refine ⟨Builder.complete { started := true, anchors } node, ?_, rfl, rfl⟩
  exact (Builder.run_cons_of_step rfl).trans ((Builder.run_cons_of_step rfl).trans hrun)

/-- `{&a k: [*a], k: !!str 1, !t z}`: two pairs with the same key, the first with an anchor, and a tagged key without a
value. -/
theorem loading_of_outline_of_repeated_keys :
    let source : Text := "{&a k: [*a], k: !!str 1, !t z}".toList
    let outline : Outline := .mapping
      [⟨.scalar ['k'] .plain 1 none 4, .sequence [.aliasOf 1 8] 0 7 10⟩,
        ⟨.scalar ['k'] .plain 0 none 13, .scalar ['1'] .plain 0 (some ⟨"!!".toList, "str".toList⟩) 22⟩]
      (some (.scalar ['z'] .plain 0 (some ⟨['!'], ['t']⟩) 28)) 0 0 29
    (∀ e ∈ outline.events, e.event.agrees (Version.effective source .v1_2)) ∧
    ∃ doc contents, Document.ofReadings source .v1_2 ((outline.stream 0 0 30 30).map .ok) = .ok doc ∧
      doc.contents = some contents ∧ outline.Describes (Version.effective source .v1_2) contents ∧
      ∃ key items key' tagged last pairFlow pairRange flow range,
        contents = .mapping [⟨.scalar key, .sequence items pairFlow none pairRange⟩, ⟨.scalar key', .scalar tagged⟩,
          ⟨.scalar last, .scalar ⟨.null, [], .plain, none, none, none⟩⟩] flow none range ∧
        key.anchor = some 1 ∧ key'.anchor = none ∧ tagged.tag = some "tag:yaml.org,2002:str".toList ∧
        tagged.value = .string ['1'] ∧ last.tag = some "!t".toList := by
  intro source outline
  have hagrees : ∀ e ∈ outline.events, e.event.agrees (Version.effective source .v1_2) := by decide
  obtain ⟨doc, contents, hload, hcontents, hdescribes⟩ := loading_of_outline source .v1_2 outline 0 0 30 30 hagrees
  have hone : Scalar.resolve (Version.effective source .v1_2) .plain (some "tag:yaml.org,2002:str".toList) ['1'] =
      some (.string ['1']) := by decide
  refine ⟨hagrees, doc, contents, hload, hcontents, hdescribes, ?_⟩
  dsimp only [outline] at hdescribes
  cases hdescribes with
  | mapping hpairs =>
    cases hpairs with
    | cons hkey hvalue hpairs =>
      cases hkey
      cases hvalue
      cases hpairs with
      | cons hkey' htagged hpairs =>
        cases hkey'
        cases htagged with
        | scalar hresolve =>
          cases hpairs with
          | last hlast =>
            cases hlast
            exact ⟨_, _, _, _, _, _, _, _, _, rfl, rfl, rfl, rfl, Option.some.inj (hresolve.symm.trans hone), rfl⟩

end LocatedYaml
