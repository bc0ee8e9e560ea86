import LocatedYaml.Proofs.Conversion.Origin
import LocatedYaml.Proofs.Document.Anchors

/-!
# Locations of converted trees

The location of an element is taken from the item before any alias is followed, that of its value from what the item
becomes.  They agree because a tree stands where its node stands (`Tree.loc_ofNode`), which for an alias needs that
the alias itself has a range: the copy of its target is moved there.  Every alias of a loaded document has one.

`locations_of_conversion` says this for every place of a converted tree, with what the members and the elements are
made of.
-/

namespace LocatedYaml

namespace Tree

variable {table : PositionTable} {anchors : AnchorTable} {expanding : Expanding} {contents node : Node}
  {body tree : Tree}

private theorem loc_ofNode_of_not_alias (halias : node.isAlias = false)
    (h : Tree.ofNode table anchors expanding node = .ok tree) : tree.loc = table.location node.range := by
  cases node with
  | aliasOf id range => cases halias
  | scalar scalar =>
    rw [ofNode_scalar] at h
    exact (ofScalar_eq_ok h).1
  | mapping pairs flow anchor range =>
    obtain ⟨members, -, rfl⟩ := ofNode_mapping_eq_ok h
    rfl
  | sequence items flow anchor range =>
    obtain ⟨elements, -, rfl⟩ := ofNode_sequence_eq_ok h
    rfl

/-- A tree stands where its node stands, whatever an alias becomes. -/
theorem loc_ofNode (hranged : node.Ranged) (h : Tree.ofNode table anchors expanding node = .ok tree) :
    tree.loc = table.location node.range := by
  cases node with
  | aliasOf id range =>
    obtain ⟨r, rfl⟩ := Option.isSome_iff_exists.1 (hranged id range (.refl _))
    rcases ofNode_aliasOf_eq_ok h with rfl | ⟨target, -, -, halias, htarget⟩
    · rfl
    · rw [loc_ofNode_of_not_alias halias htarget, Node.range_withRange, Option.some_or, Node.range]
  | _ => exact loc_ofNode_of_not_alias rfl h

/-- The aliases of a loaded document have ranges wherever the walk through its tree leads. -/
theorem Origin.ranged (hcontents : contents.Ranged)
    (hanchors : ∀ id target, anchors.find? id = some target → target.Ranged)
    (h : Origin anchors contents body expanding node tree) : node.Ranged := by
  let P (node : Node) : Prop := ∀ id range, node = .aliasOf id range → range.isSome
  have heverywhere : node.Everywhere P := by
    refine h.everywhere (fun inner hw id range heq => hcontents id range (heq ▸ hw))
      (fun id target hfind inner hw id' range heq => hanchors id target hfind id' range (heq ▸ hw)) ?_
    -- the target of an alias is no alias, wherever it is moved
    intro id range target hfind _ _ id' range' heq
    have halias := AnchorTable.isAlias_of_find? hfind
    rw [← Node.isAlias_withRange, heq] at halias
    cases halias
  exact fun id range hw => heverywhere _ hw id range rfl

/-- Following a key that is an alias does not move it. -/
theorem range_keyNode {key : Node} (hranged : key.Ranged) : (keyNode anchors expanding key).range = key.range := by
  cases key with
  | aliasOf id range =>
    obtain ⟨r, rfl⟩ := Option.isSome_iff_exists.1 (hranged id range (.refl _))
    rw [keyNode]
    split
    · rfl
    · rw [AnchorTable.relocated?]
      cases anchors.find? id with
      | none => rfl
      | some target => rw [Option.map_some, Option.getD_some, Node.range_withRange, Option.some_or, Node.range]
  | _ => rfl

theorem loc_of_nameOf {key : Node} {name : Name} (h : nameOf table key = .ok name) :
    name.loc = table.location key.range := by
  cases key with
  | scalar s | aliasOf id range =>
    obtain rfl := Except.ok.inj h
    rfl
  | mapping pairs flow anchor range | sequence items flow anchor range => cases h

/-- Where a member stands: from its name through its value, or at its name when the value is not in the source. -/
theorem memberLoc_start (name : Name) (pair : Pair Node) (value : Tree) :
    (memberLoc name pair value).start = name.loc.start := by
  unfold memberLoc
  split <;> rfl

theorem memberLoc_stop (name : Name) (pair : Pair Node) (value : Tree) :
    (memberLoc name pair value).stop = if pair.value.range.isSome then value.loc.stop else name.loc.stop := by
  unfold memberLoc
  split <;> rfl

end Tree

/-- All objects and arrays of a converted tree come from mappings and sequences of the loaded document.  An object has
a member for every pair, in order, which starts with its name and ends with its value, or with the name when the value
has no range.  An array has an element for every item, in order, located where its value is. -/
theorem locations_of_conversion {source : Text} {chosen : Version} {readings : List Reading}
    {doc : Document} {converted : Tree.Document} (hload : Document.ofReadings source chosen readings = .ok doc)
    (hconvert : Tree.Document.ofReadings source chosen readings = .ok converted) :
    ∃ contents, doc.contents = some contents ∧
      (∀ tree : Tree, tree.Within converted.body → ∃ expanding node,
        Tree.Origin doc.anchors contents converted.body expanding node tree ∧
        node.isMapping = tree.members?.isSome ∧ node.isSequence = tree.elements?.isSome) ∧
      (∀ expanding pairs flow anchor range tree,
        Tree.Origin doc.anchors contents converted.body expanding (.mapping pairs flow anchor range) tree →
        ∃ members loc, tree = .object members loc ∧ List.Forall₂ (fun pair member =>
          Tree.nameOf (.ofText source) (Tree.keyNode doc.anchors expanding pair.key) = .ok member.name ∧
          Tree.ofNode (.ofText source) doc.anchors (expanding.enter pair.value) pair.value = .ok member.value ∧
          member.loc.start = member.name.loc.start ∧
          member.loc.stop = if pair.value.range.isSome then member.value.loc.stop else member.name.loc.stop)
          pairs members) ∧
      (∀ expanding items flow anchor range tree,
        Tree.Origin doc.anchors contents converted.body expanding (.sequence items flow anchor range) tree →
        ∃ elements loc, tree = .array elements loc ∧ List.Forall₂ (fun item element =>
          Tree.ofNode (.ofText source) doc.anchors (expanding.enter item) item = .ok element.value ∧
          element.loc = element.value.loc) items elements) := by
  obtain ⟨contents, hcontents, hbody⟩ := Tree.body_of_ofReadings hload hconvert
  obtain ⟨events, -, hevents⟩ := Document.exists_events_of_ofReadings hload
  obtain ⟨hranged, hanchors⟩ := Document.ranged_of_ofEvents hevents
  refine ⟨contents, hcontents, fun tree hw => ?_, fun expanding pairs flow anchor range tree h => ?_,
    fun expanding items flow anchor range tree h => ?_⟩
  · obtain ⟨expanding, node, h⟩ := Tree.Origin.exists_of_within hbody hw
    exact h.settled hbody
  · obtain ⟨members, hpairs, rfl⟩ := Tree.ofNode_mapping_eq_ok (h.ofNode hbody)
    refine ⟨members, _, rfl, (Tree.forall₂_of_ofPairs hpairs).imp fun pair member hmember => ?_⟩
    obtain ⟨hname, hvalue, hloc⟩ := hmember
    exact ⟨hname, hvalue, hloc ▸ Tree.memberLoc_start .., hloc ▸ Tree.memberLoc_stop ..⟩
  · obtain ⟨elements, hitems, rfl⟩ := Tree.ofNode_sequence_eq_ok (h.ofNode hbody)
    refine ⟨elements, _, rfl, List.forall₂_iff_zip.2 ⟨(Tree.forall₂_of_ofItems hitems).length_eq, ?_⟩⟩
    intro item element helement
    obtain ⟨hvalue, hloc⟩ := List.forall₂_zip (Tree.forall₂_of_ofItems hitems) helement
    have hitem := (h.element helement).ranged (hranged contents hcontents) hanchors
    exact ⟨hvalue, by rw [hloc, Tree.loc_ofNode hitem hvalue]⟩

/-- `[&a {k: *a, m: }, *a]`: an alias inside the node it refers to, a value that is left out, and a copy of both. -/
theorem locations_of_conversion_of_copy :
    let source : Text := "[&a \x7bk: *a, m: \x7d, *a]".toList
    let readings : List Reading :=
      [⟨.documentStart, 0⟩, ⟨.sequenceStart 0, 0⟩, ⟨.mappingStart 1, 4⟩, ⟨.scalar ['k'] .plain 0 none, 5⟩,
        ⟨.aliasOf 1, 8⟩, ⟨.scalar ['m'] .plain 0 none, 12⟩, ⟨.scalar [] .plain 0 none, 15⟩, ⟨.mappingEnd, 15⟩,
        ⟨.aliasOf 1, 18⟩, ⟨.sequenceEnd, 20⟩, ⟨.documentEnd, 21⟩].map .ok
    ∃ doc converted, Document.ofReadings source .v1_2 readings = .ok doc ∧
      Tree.Document.ofReadings source .v1_2 readings = .ok converted ∧
      ∃ first copy loc, converted.body = .array [first, copy] loc ∧ first.loc = first.value.loc ∧
        copy.loc = copy.value.loc ∧ ∃ k m loc, copy.value = .object [k, m] loc ∧
          k.loc.stop = k.value.loc.stop ∧ m.loc.stop = m.name.loc.stop := by
  intro source readings
  let copied (range : Range) : Node :=
    .mapping [⟨.scalar ⟨.string ['k'], ['k'], .plain, none, none, some ⟨5, 6⟩⟩, .aliasOf 1 (some ⟨8, 10⟩)⟩,
      ⟨.scalar ⟨.string ['m'], ['m'], .plain, none, none, some ⟨12, 13⟩⟩, .absent⟩] true (some 1) (some range)
  let contents : Node := .sequence [copied ⟨4, 16⟩, .aliasOf 1 (some ⟨18, 20⟩)] true none (some ⟨0, 21⟩)
  obtain ⟨doc, hload, hcontents, hfind⟩ : ∃ doc, Document.ofReadings source .v1_2 readings = .ok doc ∧
      doc.contents = some contents ∧ doc.anchors.find? 1 = some (copied ⟨4, 16⟩) := ⟨_, rfl, rfl, rfl⟩
  obtain ⟨body, hbody⟩ : ∃ body, Tree.ofContents (.ofText source) doc.anchors contents = .ok body := by
    simp [contents, Tree.ofContents, Expanding.enter, Node.anchor, Tree.ofItems, Tree.ofPairs, Tree.nameOf,
      Tree.keyNode, Node.absent, Tree.ofScalar, Tree.ofNode_aliasOf_of_mem, Tree.ofNode_aliasOf_of_some _ hfind,
      Node.withRange, Except.map, bind, Except.bind, pure, Except.pure, copied]
  have hconvert := (Tree.ofReadings_eq_ok hload).2 ⟨contents, body, hcontents, hbody, rfl⟩
  obtain ⟨_, hcontents', -, hobjects, harrays⟩ := locations_of_conversion hload hconvert
  obtain rfl := Option.some.inj (hcontents'.symm.trans hcontents)
  obtain ⟨elements, arrayLoc, rfl, helements⟩ := harrays _ _ _ _ _ _ .contents
  obtain _ | ⟨⟨-, hfirst⟩, _ | ⟨⟨-, hcopy⟩, _ | _⟩⟩ := helements
  rename_i first copy
  have hzip : (Node.aliasOf 1 (some ⟨18, 20⟩), copy) ∈
      [copied ⟨4, 16⟩, .aliasOf 1 (some ⟨18, 20⟩)].zip [first, copy] := by simp
  have hroot : Tree.Origin doc.anchors contents _ _ contents (.array [first, copy] arrayLoc) := .contents
  have hcopied := (hroot.element hzip).target List.not_mem_nil hfind
  obtain ⟨members, objectLoc, hobject, hmembers⟩ := hobjects _ _ _ _ _ _ hcopied
  obtain _ | ⟨⟨-, -, -, hk⟩, _ | ⟨⟨-, -, -, hm⟩, _ | _⟩⟩ := hmembers
  exact ⟨doc, _, hload, hconvert, first, copy, arrayLoc, rfl, hfirst, hcopy, _, _, objectLoc, hobject, hk, hm⟩

end LocatedYaml
