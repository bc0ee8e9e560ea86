import LocatedYaml.Proofs.Conversion.Location
import LocatedYaml.Proofs.Document.Ranges
import LocatedYaml.Proofs.Location.Order

/-!
# The whole text encloses the tree

Every location in a converted tree is taken from ranges of nodes of the loaded document (`Tree.Locates`), and no such
range leaves the source.  So all that is known of the locations stays inside the location of the whole text, and a
position is unknown only where its node has no range or, for an end, where the range ends at offset 0.
-/

namespace LocatedYaml

/-- The range of the node, if it has one, stays in a source of `length` bytes. -/
def Node.InSource (length : Nat) (node : Node) : Prop :=
  ∀ r, node.range = some r → r.start ≤ length ∧ r.stop ≤ length

namespace Tree

variable {anchors : AnchorTable} {expanding : Expanding} {contents node first last : Node} {body tree : Tree}
  {loc : Location} {length : Nat} {table : PositionTable}

/-- `Locates anchors contents body loc first last`: `loc` is a location in `body` that starts where `first` starts and
ends where `last` ends.  A member starts with its key and ends with its value, or with the key when the value has no
range; every other location is that of one node. -/
inductive Locates (anchors : AnchorTable) (contents : Node) (body : Tree) : Location → Node → Node → Prop where
  | tree {expanding : Expanding} {node : Node} {tree : Tree} (h : Origin anchors contents body expanding node tree) :
    Locates anchors contents body tree.loc node node
  | name {expanding : Expanding} {pairs : List (Pair Node)} {flow : Bool} {anchor : Option AnchorId}
    {range : Option Range} {members : List (Member Tree)} {loc : Location} {pair : Pair Node} {member : Member Tree}
    (h : Origin anchors contents body expanding (.mapping pairs flow anchor range) (.object members loc))
    (hmember : (pair, member) ∈ pairs.zip members) : Locates anchors contents body member.name.loc pair.key pair.key
  | member {expanding : Expanding} {pairs : List (Pair Node)} {flow : Bool} {anchor : Option AnchorId}
    {range : Option Range} {members : List (Member Tree)} {loc : Location} {pair : Pair Node} {member : Member Tree}
    (h : Origin anchors contents body expanding (.mapping pairs flow anchor range) (.object members loc))
    (hmember : (pair, member) ∈ pairs.zip members) :
    Locates anchors contents body member.loc pair.key (if pair.value.range.isSome then pair.value else pair.key)
  | element {expanding : Expanding} {items : List Node} {flow : Bool} {anchor : Option AnchorId}
    {range : Option Range} {elements : List (Element Tree)} {loc : Location} {item : Node} {element : Element Tree}
    (h : Origin anchors contents body expanding (.sequence items flow anchor range) (.array elements loc))
    (helement : (item, element) ∈ items.zip elements) : Locates anchors contents body element.loc item item

/-- All locations of all parts of the tree are accounted for. -/
theorem Locates.exists_of_mem (hbody : ofContents table anchors contents = .ok body) (hw : tree.Within body)
    (hloc : loc ∈ tree.locs) : ∃ first last, Locates anchors contents body loc first last := by
  obtain ⟨expanding, node, h⟩ := Origin.exists_of_within hbody hw
  cases tree with
  | object members treeLoc =>
    obtain ⟨expanding, pairs, flow, anchor, range, h, hzip⟩ := h.mapping_of_object hbody
    rcases List.mem_cons.1 hloc with rfl | hloc
    · exact ⟨_, _, .tree h⟩
    · obtain ⟨member, hmember, hloc⟩ := List.mem_flatMap.1 hloc
      obtain ⟨pair, hpair⟩ := hzip member hmember
      rcases List.mem_pair.1 hloc with rfl | rfl
      · exact ⟨_, _, .member h hpair⟩
      · exact ⟨_, _, .name h hpair⟩
  | array elements treeLoc =>
    obtain ⟨expanding, items, flow, anchor, range, h, hzip⟩ := h.sequence_of_array hbody
    rcases List.mem_cons.1 hloc with rfl | hloc
    · exact ⟨_, _, .tree h⟩
    · obtain ⟨element, helement, rfl⟩ := List.mem_map.1 hloc
      obtain ⟨item, hitem⟩ := hzip element helement
      exact ⟨_, _, .element h hitem⟩
  | string value treeLoc | number value treeLoc | boolean value treeLoc | null treeLoc =>
    obtain rfl := List.mem_singleton.1 hloc
    exact ⟨_, _, .tree h⟩

/-! ### The ranges behind the locations -/

theorem Origin.inSource (hcontents : contents.Everywhere (Node.InSource length))
    (hanchors : ∀ id target, anchors.find? id = some target → target.Everywhere (Node.InSource length))
    (h : Origin anchors contents body expanding node tree) : node.Everywhere (Node.InSource length) := by
  refine h.everywhere hcontents hanchors fun id range target _ halias htarget r hr => ?_
  rw [Node.range_withRange] at hr
  rcases Option.or_eq_some_iff.1 hr with hr | ⟨-, hr⟩
  · exact halias r hr
  · exact htarget r hr

/-- A name stands where the key stands, a member from there to the end of the value, or of the key when the value has
no range. -/
theorem Origin.loc_member {pairs : List (Pair Node)} {flow : Bool} {anchor : Option AnchorId} {range : Option Range}
    {members : List (Member Tree)} {pair : Pair Node} {member : Member Tree}
    (hbody : ofContents table anchors contents = .ok body)
    (h : Origin anchors contents body expanding (.mapping pairs flow anchor range) (.object members loc))
    (hranged : (Node.mapping pairs flow anchor range).Ranged) (hmember : (pair, member) ∈ pairs.zip members) :
    member.name.loc = table.location pair.key.range ∧ member.loc.start = (table.location pair.key.range).start ∧
      member.loc.stop =
        (table.location (if pair.value.range.isSome then pair.value else pair.key).range).stop := by
  obtain ⟨hname, hvalue, hloc⟩ := List.forall₂_zip (forall₂_of_object (h.ofNode hbody)) hmember
  have hpair := (List.of_mem_zip hmember).1
  have hkey : member.name.loc = table.location pair.key.range := by
    rw [loc_of_nameOf hname, range_keyNode (hranged.child (Node.key_mem_children hpair))]
  refine ⟨hkey, ?_, ?_⟩
  · rw [hloc, memberLoc_start, hkey]
  · rw [hloc, memberLoc_stop, loc_ofNode (hranged.child (Node.value_mem_children hpair)) hvalue, hkey]
    split <;> rfl

/-- A location starts at the range of its first node and ends at the range of its last node, and both ranges are in
the source. -/
theorem Locates.ranges (hbody : ofContents table anchors contents = .ok body)
    (hnodes : ∀ {expanding node tree}, Origin anchors contents body expanding node tree →
      node.Ranged ∧ node.Everywhere (Node.InSource length))
    (h : Locates anchors contents body loc first last) :
    loc.start = (table.location first.range).start ∧ loc.stop = (table.location last.range).stop ∧
      first.InSource length ∧ last.InSource length := by
  cases h with
  | tree h =>
    obtain ⟨hranged, hsource⟩ := hnodes h
    have hnode := hsource.self
    rw [loc_ofNode hranged (h.ofNode hbody)]
    exact ⟨rfl, rfl, hnode, hnode⟩
  | name h hmember =>
    obtain ⟨hranged, hsource⟩ := hnodes h
    have hkey := (hsource.child (Node.key_mem_children (List.of_mem_zip hmember).1)).self
    rw [(h.loc_member hbody hranged hmember).1]
    exact ⟨rfl, rfl, hkey, hkey⟩
  | member h hmember =>
    obtain ⟨hranged, hsource⟩ := hnodes h
    have hkey := (hsource.child (Node.key_mem_children (List.of_mem_zip hmember).1)).self
    have hvalue := (hsource.child (Node.value_mem_children (List.of_mem_zip hmember).1)).self
    obtain ⟨-, hstart, hstop⟩ := h.loc_member hbody hranged hmember
    refine ⟨hstart, hstop, hkey, ?_⟩
    split
    · exact hvalue
    · exact hkey
  | element h helement =>
    have hitem := (hnodes (h.element helement)).2.self
    rw [(List.forall₂_zip (forall₂_of_array (h.ofNode hbody)) helement).loc]
    exact ⟨rfl, rfl, hitem, hitem⟩

end Tree

/-- All that is known of the locations in a converted tree stays inside the location of the document.  Each location
is taken from the ranges of nodes of the loaded document: its start is unknown where the first of them has no range,
its end where the last of them has no range or one that ends at offset 0. -/
theorem enclosure_of_conversion {source : Text} {chosen : Version} {readings : List Reading} {doc : Document}
    {converted : Tree.Document} (hload : Document.ofReadings source chosen readings = .ok doc)
    (hconvert : Tree.Document.ofReadings source chosen readings = .ok converted) :
    ∃ contents, doc.contents = some contents ∧
      (∀ tree : Tree, tree.Within converted.body → ∀ loc ∈ tree.locs,
        (loc.start.isUnknown = false → (compare converted.loc.start loc.start).isLE) ∧
        (loc.stop.isUnknown = false → (compare loc.stop converted.loc.stop).isLE) ∧
        ∃ first last, Tree.Locates doc.anchors contents converted.body loc first last) ∧
      (∀ loc first last, Tree.Locates doc.anchors contents converted.body loc first last →
        (loc.start.isUnknown ↔ first.range = none) ∧
        (loc.stop.isUnknown ↔ ∀ r, last.range = some r → r.stop = 0)) := by
  obtain ⟨contents, body, hcontents, hbody, rfl⟩ := (Tree.ofReadings_eq_ok hload).1 hconvert
  obtain ⟨events, -, hevents⟩ := Document.exists_events_of_ofReadings hload
  obtain ⟨hranged, hrangedAnchors⟩ := Document.ranged_of_ofEvents hevents
  have hsource : ∀ node, doc.Contains node → node.Everywhere (Node.InSource source.byteLength) :=
    fun node hnode inner hw => (Document.placed_of_ofEvents hevents hnode inner hw).bounded
  have hnodes : ∀ {expanding node tree}, Tree.Origin doc.anchors contents body expanding node tree →
      node.Ranged ∧ node.Everywhere (Node.InSource source.byteLength) := fun h =>
    ⟨h.ranged (hranged contents hcontents) hrangedAnchors,
      h.inSource (hsource contents (Or.inl ⟨contents, hcontents, .refl _⟩))
        fun id target hfind => hsource target (Or.inr ⟨id, target, hfind, .refl _⟩)⟩
  refine ⟨contents, hcontents, fun tree hw loc hloc => ?_, fun loc first last h => ?_⟩
  · obtain ⟨first, last, h⟩ := Tree.Locates.exists_of_mem hbody hw hloc
    obtain ⟨hstart, hstop, hfirst, hlast⟩ := h.ranges hbody hnodes
    rw [hstart, hstop]
    exact ⟨PositionTable.start_le_location hfirst, PositionTable.location_le_stop hlast, first, last, h⟩
  · obtain ⟨hstart, hstop, hfirst, hlast⟩ := h.ranges hbody hnodes
    rw [hstart, hstop]
    exact ⟨PositionTable.isUnknown_start_location hfirst, PositionTable.isUnknown_stop_location hlast⟩

/-- A line feed, then `{k: é, m: }`: the mapping starts on line 2, and a value is left out. -/
theorem enclosure_of_conversion_of_second_line :
    let source : Text := "\n\x7bk: é, m: \x7d".toList
    let readings : List Reading :=
      [⟨.documentStart, 0⟩, ⟨.mappingStart 0, 1⟩, ⟨.scalar ['k'] .plain 0 none, 2⟩, ⟨.scalar ['é'] .plain 0 none, 5⟩,
        ⟨.scalar ['m'] .plain 0 none, 8⟩, ⟨.scalar [] .plain 0 none, 11⟩, ⟨.mappingEnd, 11⟩, ⟨.documentEnd, 12⟩].map .ok
    ∃ doc converted, Document.ofReadings source .v1_2 readings = .ok doc ∧
      Tree.Document.ofReadings source .v1_2 readings = .ok converted ∧
      ∀ tree : Tree, tree.Within converted.body → ∀ loc ∈ tree.locs,
        (loc.start.isUnknown = false → (compare ⟨1, 1, 0⟩ loc.start).isLE) ∧
        (loc.stop.isUnknown = false → (compare loc.stop ⟨2, 12, 12⟩).isLE) := by
  intro source readings
  let contents : Node :=
    .mapping [⟨.scalar ⟨.string ['k'], ['k'], .plain, none, none, some ⟨2, 3⟩⟩,
        .scalar ⟨.string ['é'], ['é'], .plain, none, none, some ⟨5, 7⟩⟩⟩,
      ⟨.scalar ⟨.string ['m'], ['m'], .plain, none, none, some ⟨9, 10⟩⟩, .absent⟩] true none (some ⟨1, 13⟩)
  obtain ⟨doc, hload, hcontents⟩ : ∃ doc, Document.ofReadings source .v1_2 readings = .ok doc ∧
      doc.contents = some contents := ⟨_, rfl, rfl⟩
  obtain ⟨body, hbody⟩ : ∃ body, Tree.ofContents (.ofText source) doc.anchors contents = .ok body := by
    simp [contents, Tree.ofContents, Expanding.enter, Node.anchor, Tree.ofPairs, Tree.nameOf, Tree.keyNode,
      Node.absent, Tree.ofScalar, Except.map, bind, Except.bind, pure, Except.pure]
  have hconvert := (Tree.ofReadings_eq_ok hload).2 ⟨contents, body, hcontents, hbody, rfl⟩
  have hloc : (PositionTable.ofText source).documentLocation = ⟨⟨1, 1, 0⟩, ⟨2, 12, 12⟩⟩ := rfl
  obtain ⟨_, -, hinside, -⟩ := enclosure_of_conversion hload hconvert
  rw [hloc] at hinside
  exact ⟨doc, _, hload, hconvert, fun tree hw loc hmem =>
    ⟨(hinside tree hw loc hmem).1, (hinside tree hw loc hmem).2.1⟩⟩

end LocatedYaml
