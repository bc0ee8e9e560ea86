import LocatedYaml.Proofs.Conversion.Basic
import LocatedYaml.Proofs.Document.Erasure

/-!
# Conversion without places

Ranges become locations and nothing else: up to locations, a node is converted as the node without places, with any
position table (`Tree.erased_ofNode`).  With what is known of loading, the values of a tree depend on the events and the
version alone (`values_of_same_events`).
-/

namespace LocatedYaml

/-- What stands for the location that is taken away. -/
def Location.nowhere : Location := ⟨⟨-1, -1, -1⟩, ⟨-1, -1, -1⟩⟩

def Name.erased (name : Name) : Name := ⟨name.value, .nowhere⟩

namespace Tree

mutual

/-- The tree without locations, its own and those inside it. -/
def erased : Tree → Tree
  | .object members _ => .object (erasedMembers members) .nowhere
  | .array elements _ => .array (erasedElements elements) .nowhere
  | .string value _ => .string value .nowhere
  | .number value _ => .number value .nowhere
  | .boolean value _ => .boolean value .nowhere
  | .null _ => .null .nowhere

def erasedMembers : List (Member Tree) → List (Member Tree)
  | [] => []
  | ⟨name, value, _⟩ :: members => ⟨name.erased, value.erased, .nowhere⟩ :: erasedMembers members

def erasedElements : List (Element Tree) → List (Element Tree)
  | [] => []
  | ⟨value, _⟩ :: elements => ⟨value.erased, .nowhere⟩ :: erasedElements elements

end

def Document.erased (doc : Document) : Document := ⟨doc.body.erased, .nowhere⟩

end Tree

/-- The failure without the location or the range that it shows. -/
def ConvertError.erased : ConvertError → ConvertError
  | .notText => .notText
  | .load error => .load error.erased
  | .noContent => .noContent
  | .unsupportedScalar kind _ => .unsupportedScalar kind .nowhere
  | .unsupportedKey kind _ => .unsupportedKey kind .nowhere

@[simp] theorem Expanding.enter_erased (expanding : Expanding) (node : Node) :
    expanding.enter node.erased = expanding.enter node := by
  rw [enter, enter, Node.anchor_erased]

namespace Tree

/-! ### Nodes -/

theorem erased_ofScalar (table table' : PositionTable) (s : Scalar) :
    mapResult erased ConvertError.erased (ofScalar table s) =
      mapResult erased ConvertError.erased (ofScalar table' { s with range := none }) := by
  rw [ofScalar, ofScalar]
  cases s.value <;> rfl

theorem erased_nameOf (table table' : PositionTable) (node : Node) :
    mapResult Name.erased ConvertError.erased (nameOf table node) =
      mapResult Name.erased ConvertError.erased (nameOf table' node.erased) := by
  cases node <;> rfl

theorem erased_keyNode (anchors : AnchorTable) (expanding : Expanding) (key : Node) :
    (keyNode anchors expanding key).erased = keyNode anchors.erased expanding key.erased := by
  cases key with
  | aliasOf id range =>
    simp only [keyNode, Node.erased]
    split
    · rfl
    · rw [AnchorTable.relocated?, AnchorTable.relocated?, AnchorTable.find?_erased]
      cases anchors.find? id <;> simp [Node.erased]
  | _ => rfl

mutual

/-- Up to locations, a node is converted as the node without places. -/
theorem erased_ofNode (table table' : PositionTable) (anchors : AnchorTable) (expanding : Expanding) (node : Node) :
    mapResult erased ConvertError.erased (ofNode table anchors expanding node) =
      mapResult erased ConvertError.erased (ofNode table' anchors.erased expanding node.erased) := by
  match node with
  | .scalar s =>
    rw [Node.erased, ofNode_scalar, ofNode_scalar]
    exact erased_ofScalar table table' s
  | .mapping pairs flow anchor range =>
    rw [Node.erased, ofNode_mapping, ofNode_mapping]
    exact mapResult_map (erased_ofPairs table table' anchors expanding pairs) fun members members' h =>
      congrArg (Tree.object · _) h
  | .sequence items flow anchor range =>
    rw [Node.erased, ofNode_sequence, ofNode_sequence]
    exact mapResult_map (erased_ofItems table table' anchors expanding items) fun elements elements' h =>
      congrArg (Tree.array · _) h
  | .aliasOf id range =>
    rw [Node.erased]
    by_cases hid : id ∈ expanding
    · rw [ofNode_aliasOf_of_mem hid, ofNode_aliasOf_of_mem hid]
      rfl
    · cases hfind : anchors.find? id with
      | none =>
        have hfind' : anchors.erased.find? id = none := by rw [AnchorTable.find?_erased, hfind]; rfl
        rw [ofNode_aliasOf_of_none hfind, ofNode_aliasOf_of_none hfind']
        rfl
      | some target =>
        have hfind' : anchors.erased.find? id = some target.erased := by rw [AnchorTable.find?_erased, hfind]; rfl
        -- the copy is moved to the place of the alias, and erasing it forgets that place
        rw [ofNode_aliasOf_of_some hid hfind, ofNode_aliasOf_of_some hid hfind',
          erased_ofNode table table' anchors (id :: expanding) (target.withRange (range.or target.range))]
        simp
termination_by (anchors.unexpanded expanding, sizeOf node)
decreasing_by
  · exact Prod.Lex.right _ (by rw [Node.mapping.sizeOf_spec]; omega)
  · exact Prod.Lex.right _ (by rw [Node.sequence.sizeOf_spec]; omega)
  · exact Prod.Lex.left _ _ (AnchorTable.unexpanded_lt hfind hid)

theorem erased_ofPairs (table table' : PositionTable) (anchors : AnchorTable) (expanding : Expanding)
    (pairs : List (Pair Node)) :
    mapResult erasedMembers ConvertError.erased (ofPairs table anchors expanding pairs) =
      mapResult erasedMembers ConvertError.erased
        (ofPairs table' anchors.erased expanding (Node.erasedPairs pairs)) := by
  match pairs with
  | [] => rw [Node.erasedPairs, ofPairs_nil, ofPairs_nil]
  | ⟨key, node⟩ :: pairs =>
    rw [Node.erasedPairs, ofPairs, ofPairs, Expanding.enter_erased, ← erased_keyNode]
    -- a failure of the name comes before one of the value, and that before one of the later pairs, on both sides
    refine mapResult_bind (erased_nameOf table table' _) fun name name' hname => ?_
    refine mapResult_bind (erased_ofNode table table' anchors _ node) fun value value' hvalue => ?_
    refine mapResult_bind (erased_ofPairs table table' anchors expanding pairs) fun members members' hmembers => ?_
    simp [pure, Except.pure, mapResult, erasedMembers, hname, hvalue, hmembers]
termination_by (anchors.unexpanded expanding, sizeOf pairs)
decreasing_by
  · exact anchors.unexpanded_enter_lex expanding node (by rw [List.cons.sizeOf_spec, Pair.mk.sizeOf_spec]; omega)
  · exact Prod.Lex.right _ (by rw [List.cons.sizeOf_spec, Pair.mk.sizeOf_spec]; omega)

theorem erased_ofItems (table table' : PositionTable) (anchors : AnchorTable) (expanding : Expanding)
    (items : List Node) :
    mapResult erasedElements ConvertError.erased (ofItems table anchors expanding items) =
      mapResult erasedElements ConvertError.erased
        (ofItems table' anchors.erased expanding (Node.erasedItems items)) := by
  match items with
  | [] => rw [Node.erasedItems, ofItems_nil, ofItems_nil]
  | node :: items =>
    rw [Node.erasedItems, ofItems, ofItems, Expanding.enter_erased]
    refine mapResult_bind (erased_ofNode table table' anchors _ node) fun value value' hvalue => ?_
    refine mapResult_bind (erased_ofItems table table' anchors expanding items) fun elements elements' helements => ?_
    simp [pure, Except.pure, mapResult, erasedElements, hvalue, helements]
termination_by (anchors.unexpanded expanding, sizeOf items)
decreasing_by
  · exact anchors.unexpanded_enter_lex expanding node (by rw [List.cons.sizeOf_spec]; omega)
  · exact Prod.Lex.right _ (by rw [List.cons.sizeOf_spec]; omega)

end

/-! ### Documents -/

theorem erased_ofContents (table table' : PositionTable) (anchors : AnchorTable) (contents : Node) :
    mapResult erased ConvertError.erased (ofContents table anchors contents) =
      mapResult erased ConvertError.erased (ofContents table' anchors.erased contents.erased) := by
  rw [ofContents, ofContents, Expanding.enter_erased]
  exact erased_ofNode table table' anchors _ contents

/-- Documents that differ in places only have trees that differ in locations only. -/
theorem erased_ofLoaded (source source' : Text) {doc doc' : LocatedYaml.Document} (h : doc.erased = doc'.erased) :
    mapResult Document.erased ConvertError.erased (Document.ofLoaded source doc) =
      mapResult Document.erased ConvertError.erased (Document.ofLoaded source' doc') := by
  have hcontents : doc.contents.map Node.erased = doc'.contents.map Node.erased :=
    congrArg LocatedYaml.Document.contents h
  have hanchors : doc.anchors.erased = doc'.anchors.erased := congrArg LocatedYaml.Document.anchors h
  unfold Document.ofLoaded
  cases hc : doc.contents with
  | none =>
    rw [hc, Option.map_none, eq_comm, Option.map_eq_none_iff] at hcontents
    rw [hcontents]
  | some contents =>
    rw [hc, Option.map_some] at hcontents
    obtain ⟨contents', hc', hnode⟩ := Option.map_eq_some_iff.1 hcontents.symm
    have hbody : mapResult erased ConvertError.erased (ofContents (.ofText source) doc.anchors contents) =
        mapResult erased ConvertError.erased (ofContents (.ofText source') doc'.anchors contents') := by
      rw [erased_ofContents _ (.ofText source'), hanchors, ← hnode]
      exact (erased_ofContents _ _ _ _).symm
    rw [hc']
    exact mapResult_bind hbody fun body body' h => congrArg (fun body => Except.ok (⟨body, .nowhere⟩ : Document)) h

end Tree

/-- The values of a document do not depend on where its nodes stand.  From the same events with the same version,
whatever the texts and the places of the events, both loads give the same nodes and anchors up to ranges and flow flags,
or the same failure, and both conversions give the same tree up to locations, or the same failure. -/
theorem values_of_same_events {source source' : Text} {chosen chosen' : Version} {events events' : List MarkedEvent}
    (hversion : Version.effective source chosen = Version.effective source' chosen')
    (hevents : events.map MarkedEvent.event = events'.map MarkedEvent.event) :
    mapResult Document.erased LoadError.erased (Document.ofReadings source chosen (events.map .ok)) =
      mapResult Document.erased LoadError.erased (Document.ofReadings source' chosen' (events'.map .ok)) ∧
    mapResult Tree.Document.erased ConvertError.erased (Tree.Document.ofReadings source chosen (events.map .ok)) =
      mapResult Tree.Document.erased ConvertError.erased
        (Tree.Document.ofReadings source' chosen' (events'.map .ok)) := by
  have hload : mapResult Document.erased LoadError.erased (Document.ofReadings source chosen (events.map .ok)) =
      mapResult Document.erased LoadError.erased (Document.ofReadings source' chosen' (events'.map .ok)) := by
    rw [Document.ofReadings_map_ok, Document.ofReadings_map_ok, hversion]
    exact Document.erased_ofEvents source source' _ hevents
  exact ⟨hload, mapResult_bind (mapResult_mapError hload fun _ _ => congrArg ConvertError.load) fun doc doc' =>
    Tree.erased_ofLoaded source source'⟩

/-- A flow sequence and a block sequence with the same events: their ranges differ, their values do not. -/
theorem values_of_same_events_in_flow_and_block :
    let flow : Text := "[&a x, *a]".toList
    let block : Text := "- &a x\n- *a\n".toList
    let flowEvents : List MarkedEvent :=
      [⟨.documentStart, 0⟩, ⟨.sequenceStart 0, 0⟩, ⟨.scalar ['x'] .plain 1 none, 4⟩, ⟨.aliasOf 1, 7⟩,
        ⟨.sequenceEnd, 9⟩, ⟨.documentEnd, 10⟩]
    let blockEvents : List MarkedEvent :=
      [⟨.documentStart, 0⟩, ⟨.sequenceStart 0, 0⟩, ⟨.scalar ['x'] .plain 1 none, 5⟩, ⟨.aliasOf 1, 9⟩,
        ⟨.sequenceEnd, 12⟩, ⟨.documentEnd, 12⟩]
    Version.effective flow .v1_2 = Version.effective block .v1_2 ∧
      flowEvents.map MarkedEvent.event = blockEvents.map MarkedEvent.event ∧
      (∃ doc doc', Document.ofReadings flow .v1_2 (flowEvents.map .ok) = .ok doc ∧
        Document.ofReadings block .v1_2 (blockEvents.map .ok) = .ok doc' ∧
        doc.contents.map Node.range ≠ doc'.contents.map Node.range ∧ doc.erased = doc'.erased) ∧
      mapResult Tree.Document.erased ConvertError.erased (Tree.Document.ofReadings flow .v1_2 (flowEvents.map .ok)) =
        mapResult Tree.Document.erased ConvertError.erased
          (Tree.Document.ofReadings block .v1_2 (blockEvents.map .ok)) := by
  intro flow block flowEvents blockEvents
  have hversion : Version.effective flow .v1_2 = Version.effective block .v1_2 := by decide
  have hevents : flowEvents.map MarkedEvent.event = blockEvents.map MarkedEvent.event := by decide
  obtain ⟨hload, hconversion⟩ := values_of_same_events hversion hevents
  refine ⟨hversion, hevents, ⟨_, _, rfl, rfl, by decide, ?_⟩, hconversion⟩
  exact Except.ok.inj hload

end LocatedYaml
