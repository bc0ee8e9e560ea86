import LocatedYaml.Proofs.Conversion.Basic
import LocatedYaml.Proofs.Conversion.Expansion
import LocatedYaml.Proofs.Document.Anchors

/-!
# Conversion as substitution

Where no two nodes define the same anchor and no chain of aliases leads from an anchored node back into itself, the
contents of a document have one expansion, and they are converted as this expansion is (`conversion_of_expansion`).

The conversion stops at an alias of an anchor that is being expanded.  It never gets there: from the node at hand no
chain of aliases leads to an anchor that is being expanded (`AnchorTable.Followable`).  An anchored child enters its
own anchor, and a chain from the child to this anchor would be a cycle; an alias enters the anchor it names, and a
chain from the node it refers to would be one as well.
-/

namespace LocatedYaml

namespace AnchorTable

variable {table : AnchorTable} {expanding : Expanding} {node : Node} {id : AnchorId}

/-! ### Chains of aliases -/

/-- The node with the first anchor holds an alias of the second. -/
def Refers (table : AnchorTable) (id id' : AnchorId) : Prop :=
  ∃ node, table.find? id = some node ∧ node.Mentions id'

/-- No chain of aliases leads from an anchored node back into itself. -/
def Acyclic (table : AnchorTable) : Prop := ∀ id, ¬ Relation.TransGen table.Refers id id

/-- Aliases that only refer back, to anchors of smaller numbers, form no cycle. -/
theorem acyclic_of_lt (h : ∀ id id', table.Refers id id' → id' < id) : table.Acyclic := by
  intro id hcycle
  have hlt : ∀ id', Relation.TransGen table.Refers id id' → id' < id := fun id' hchain => by
    induction hchain with
    | single hrefers => exact h _ _ hrefers
    | tail _ hrefers ih => exact Nat.lt_trans (h _ _ hrefers) ih
  exact Nat.lt_irrefl id (hlt id hcycle)

/-- A chain of aliases leads from the node to this anchor. -/
def Reaches (table : AnchorTable) (node : Node) (id : AnchorId) : Prop :=
  ∃ first, node.Mentions first ∧ Relation.ReflTransGen table.Refers first id

theorem Reaches.of_mem_children {child : Node} (hchild : child ∈ node.children) (h : table.Reaches child id) :
    table.Reaches node id := by
  obtain ⟨first, hm, hchain⟩ := h
  exact ⟨first, Node.mentions_iff.2 (Or.inr ⟨child, hchild, hm⟩), hchain⟩

theorem reaches_aliasOf (table : AnchorTable) (id : AnchorId) (range : Option Range) :
    table.Reaches (.aliasOf id range) id :=
  ⟨id, ⟨range, .refl _⟩, .refl⟩

theorem reaches_withRange {range : Option Range} :
    table.Reaches (node.withRange range) id ↔ table.Reaches node id := by
  simp only [Reaches, Node.mentions_withRange]

/-- A chain from an anchored node is a chain from its anchor. -/
theorem Reaches.transGen {target : Node} {id' : AnchorId} (hfind : table.find? id = some target)
    (h : table.Reaches target id') : Relation.TransGen table.Refers id id' := by
  obtain ⟨first, hm, hchain⟩ := h
  exact Relation.TransGen.head' ⟨target, hfind, hm⟩ hchain

/-! ### Nodes whose aliases are all followed -/

/-- All aliases inside the node stand in the source, the anchored nodes inside it are those of the table, and no chain
of aliases leads from it to an anchor that is being expanded. -/
structure Followable (table : AnchorTable) (expanding : Expanding) (node : Node) : Prop where
  ranged : node.Ranged
  records : ∀ child ∈ node.children, table.Records child
  clear : ∀ id ∈ expanding, ¬ table.Reaches node id

theorem Followable.not_mem {range : Option Range} (h : table.Followable expanding (.aliasOf id range)) :
    id ∉ expanding :=
  fun hid => h.clear id hid (table.reaches_aliasOf id range)

theorem Followable.mono {expanding' : Expanding} (h : table.Followable expanding node)
    (hsub : ∀ id ∈ expanding', id ∈ expanding) : table.Followable expanding' node :=
  ⟨h.ranged, h.records, fun id hid => h.clear id (hsub id hid)⟩

theorem Followable.leave (h : table.Followable (expanding.enter node) node) : table.Followable expanding node :=
  h.mono fun _ hid => Expanding.mem_enter.2 (Or.inr hid)

/-- No chain of aliases is a cycle, and every node of the table can be followed to the end of its chains. -/
structure Expandable (table : AnchorTable) : Prop where
  acyclic : table.Acyclic
  followable : ∀ id node, table.find? id = some node → table.Followable [] node

theorem Followable.inner {child : Node} (htable : table.Expandable) (h : table.Followable expanding node)
    (hchild : child ∈ node.children) : table.Followable (expanding.enter child) child := by
  refine ⟨fun id range hw => h.ranged id range (.inside hchild hw), fun inner hinner => ?_, fun id hid hreach => ?_⟩
  · exact fun n id hw hid => h.records child hchild n id (.inside hinner hw) hid
  · rcases Expanding.mem_enter.1 hid with hid | hid
    · have hfind := h.records child hchild child id (.refl _) hid
      exact htable.acyclic id (hreach.transGen hfind)
    · exact h.clear id hid (hreach.of_mem_children hchild)

/-- The node that an alias refers to, at the place of the alias. -/
theorem Followable.referred {target : Node} {range : Option Range} (htable : table.Expandable)
    (h : table.Followable expanding (.aliasOf id range)) (hfind : table.find? id = some target)
    (range' : Option Range) :
    table.Followable (id :: expanding) (target.withRange range') := by
  have htarget := htable.followable id target hfind
  refine ⟨fun id' range'' hw => ?_, ?_, fun id' hid' hreach => ?_⟩
  · rcases Node.within_iff.1 hw with heq | ⟨child, hchild, hw⟩
    · have halias := isAlias_of_find? hfind
      cases target with
      | aliasOf => cases halias
      | _ => cases heq
    · rw [Node.children_withRange] at hchild
      exact htarget.ranged id' range'' (.inside hchild hw)
  · rw [Node.children_withRange]
    exact htarget.records
  · have hchain := (reaches_withRange.1 hreach).transGen hfind
    rcases List.mem_cons.1 hid' with rfl | hid'
    · exact htable.acyclic id' hchain
    · exact h.clear id' hid' ⟨id, ⟨range, .refl _⟩, hchain.to_reflTransGen⟩

end AnchorTable

/-! ### The expansion exists -/

namespace Node

variable {anchors : AnchorTable}

private theorem exists_expandsPairs {pairs : List (Pair Node)}
    (h : ∀ pair ∈ pairs, (∃ key, Expands anchors pair.key key) ∧ ∃ value, Expands anchors pair.value value) :
    ∃ pairs', ExpandsPairs anchors pairs pairs' := by
  induction pairs with
  | nil => exact ⟨[], .nil⟩
  | cons pair pairs ih =>
    obtain ⟨⟨key, hkey⟩, value, hvalue⟩ := h pair (by simp)
    obtain ⟨pairs', hpairs⟩ := ih fun p hp => h p (by simp [hp])
    exact ⟨⟨key, value⟩ :: pairs', .cons hkey hvalue hpairs⟩

private theorem exists_expandsItems {items : List Node} (h : ∀ item ∈ items, ∃ item', Expands anchors item item') :
    ∃ items', ExpandsItems anchors items items' := by
  induction items with
  | nil => exact ⟨[], .nil⟩
  | cons item items ih =>
    obtain ⟨item', hitem⟩ := h item (by simp)
    obtain ⟨items', hitems⟩ := ih fun i hi => h i (by simp [hi])
    exact ⟨item' :: items', .cons hitem hitems⟩

/-- As the conversion, the expansion ends because an alias that is followed leaves fewer anchors to follow. -/
theorem exists_expands (hanchors : anchors.Expandable) {expanding : Expanding} {node : Node}
    (h : anchors.Followable expanding node) : ∃ expanded, node.Expands anchors expanded := by
  induction hn : anchors.unexpanded expanding using Nat.strongRecOn generalizing expanding node with
  | ind n ih =>
    induction node using Node.children_induction with
    | step node hchildren =>
      have hchild : ∀ child ∈ node.children, ∃ expanded, child.Expands anchors expanded := fun child hmem =>
        hchildren child hmem (h.inner hanchors hmem).leave
      cases node with
      | scalar s => exact ⟨_, .scalar s⟩
      | mapping pairs flow anchor range =>
        obtain ⟨pairs', hpairs⟩ := exists_expandsPairs fun pair hpair =>
          ⟨hchild pair.key (mem_children_mapping.2 ⟨pair, hpair, Or.inl rfl⟩),
            hchild pair.value (mem_children_mapping.2 ⟨pair, hpair, Or.inr rfl⟩)⟩
        exact ⟨_, .mapping hpairs⟩
      | sequence items flow anchor range =>
        obtain ⟨items', hitems⟩ := exists_expandsItems hchild
        exact ⟨_, .sequence hitems⟩
      | aliasOf id range =>
        cases hfind : anchors.find? id with
        | none => exact ⟨_, .undefined hfind⟩
        | some target =>
          have hlt := AnchorTable.unexpanded_lt hfind h.not_mem
          obtain ⟨expanded, hexpanded⟩ := ih _ (hn ▸ hlt) (h.referred hanchors hfind _) rfl
          exact ⟨expanded, .defined hfind hexpanded⟩

end Node

/-! ### The conversion of the expansion -/

namespace Tree

variable {anchors : AnchorTable}

/-- The node that a followed alias stands for is converted with the range of the alias, which is always there. -/
private theorem or_range {expanding : Expanding} {id : AnchorId} {range : Option Range}
    (h : anchors.Followable expanding (.aliasOf id range)) (other : Option Range) : range.or other = range := by
  obtain ⟨r, rfl⟩ := Option.isSome_iff_exists.1 (h.ranged id range (.refl _))
  rfl

/-- A key that is no alias has the name of its expansion: only what is inside it changes. -/
private theorem nameOf_expands_of_isAlias_eq_false (table : PositionTable) {key key' : Node}
    (hkey : key.Expands anchors key') (halias : key.isAlias = false) : nameOf table key = nameOf table key' := by
  cases hkey with
  | scalar s => rfl
  | mapping h => rfl
  | sequence h => rfl
  | defined hfind h => cases halias
  | undefined hfind => cases halias

private theorem keyNode_of_expanded {anchors' : AnchorTable} {expanding' : Expanding} {key key' : Node}
    (hkey : key.Expands anchors key') : keyNode anchors' expanding' key' = key' := by
  cases key' with
  | aliasOf id range => exact absurd ⟨range, .refl _⟩ (hkey.not_mentions id)
  | _ => rfl

/-- A key that is an alias stands for the node it refers to, at the place of the alias. -/
theorem keyNode_of_followable {expanding : Expanding} {id : AnchorId} {range : Option Range} {target : Node}
    (h : anchors.Followable expanding (.aliasOf id range)) (hfind : anchors.find? id = some target) :
    keyNode anchors expanding (.aliasOf id range) = target.withRange range := by
  rw [keyNode, if_neg h.not_mem, AnchorTable.relocated?, hfind, Option.map_some, or_range h, Option.getD_some]

theorem nameOf_keyNode_expands (table : PositionTable) {expanding : Expanding} (anchors' : AnchorTable)
    (expanding' : Expanding) {key key' : Node} (hkey : key.Expands anchors key')
    (h : anchors.Followable expanding key) :
    nameOf table (keyNode anchors expanding key) = nameOf table (keyNode anchors' expanding' key') := by
  rw [keyNode_of_expanded hkey]
  cases hkey with
  | @defined id range target _ hfind hexpands =>
    have halias : (target.withRange range).isAlias = false := by
      rw [Node.isAlias_withRange]
      exact AnchorTable.isAlias_of_find? hfind
    rw [keyNode_of_followable h hfind]
    exact nameOf_expands_of_isAlias_eq_false table hexpands halias
  | @undefined id range hfind =>
    rw [keyNode, if_neg h.not_mem, AnchorTable.relocated?, hfind]
    rfl
  | scalar | mapping | sequence => rfl

mutual

/-- A node is converted as its expansion, whatever anchors there are for the expansion. -/
theorem ofNode_expands (table : PositionTable) (hanchors : anchors.Expandable) (anchors' : AnchorTable)
    (expanding' : Expanding) : ∀ {expanding : Expanding} {node node' : Node},
    node.Expands anchors node' → anchors.Followable expanding node →
    ofNode table anchors expanding node = ofNode table anchors' expanding' node'
  | _, _, _, .scalar s, _ => by rw [ofNode_scalar, ofNode_scalar]
  | _, _, _, .mapping hpairs, h => by
    have := ofPairs_expands table hanchors anchors' expanding' hpairs fun pair hpair =>
      ⟨(h.inner hanchors (Node.mem_children_mapping.2 ⟨pair, hpair, Or.inl rfl⟩)).leave,
        h.inner hanchors (Node.mem_children_mapping.2 ⟨pair, hpair, Or.inr rfl⟩)⟩
    rw [ofNode_mapping, ofNode_mapping, this]
  | _, _, _, .sequence hitems, h => by
    have := ofItems_expands table hanchors anchors' expanding' hitems fun item hitem => h.inner hanchors hitem
    rw [ofNode_sequence, ofNode_sequence, this]
  | _, _, _, .defined hfind hexpands, h => by
    have := ofNode_expands table hanchors anchors' expanding' hexpands (h.referred hanchors hfind _)
    rw [ofNode_aliasOf_of_some h.not_mem hfind, or_range h, this]
  | _, _, _, .undefined hfind, _ => by
    rw [ofNode_aliasOf_of_none hfind, Node.absent, Node.withRange, ofNode_scalar]
    rfl

theorem ofPairs_expands (table : PositionTable) (hanchors : anchors.Expandable) (anchors' : AnchorTable)
    (expanding' : Expanding) : ∀ {expanding : Expanding} {pairs pairs' : List (Pair Node)},
    Node.ExpandsPairs anchors pairs pairs' →
    (∀ pair ∈ pairs,
      anchors.Followable expanding pair.key ∧ anchors.Followable (expanding.enter pair.value) pair.value) →
    ofPairs table anchors expanding pairs = ofPairs table anchors' expanding' pairs'
  | _, _, _, .nil, _ => by rw [ofPairs_nil, ofPairs_nil]
  | _, ⟨key, value⟩ :: pairs, ⟨key', value'⟩ :: pairs', .cons hkey hvalue hpairs, h => by
    obtain ⟨hfollowKey, hfollowValue⟩ := h ⟨key, value⟩ List.mem_cons_self
    have hname := nameOf_keyNode_expands table anchors' expanding' hkey hfollowKey
    have hvalue' := ofNode_expands table hanchors anchors' (expanding'.enter value') hvalue hfollowValue
    have hrest := ofPairs_expands table hanchors anchors' expanding' hpairs fun pair hpair => h pair (by simp [hpair])
    rw [ofPairs, ofPairs, hname, hvalue', hrest]
    simp only [memberLoc, hvalue.range_eq]

theorem ofItems_expands (table : PositionTable) (hanchors : anchors.Expandable) (anchors' : AnchorTable)
    (expanding' : Expanding) : ∀ {expanding : Expanding} {items items' : List Node},
    Node.ExpandsItems anchors items items' →
    (∀ item ∈ items, anchors.Followable (expanding.enter item) item) →
    ofItems table anchors expanding items = ofItems table anchors' expanding' items'
  | _, _, _, .nil, _ => by rw [ofItems_nil, ofItems_nil]
  | _, item :: items, item' :: items', .cons hitem hitems, h => by
    have hvalue := ofNode_expands table hanchors anchors' (expanding'.enter item') hitem (h item List.mem_cons_self)
    have hrest := ofItems_expands table hanchors anchors' expanding' hitems fun i hi => h i (by simp [hi])
    rw [ofItems, ofItems, hvalue, hrest, hitem.range_eq]

end

/-! ### What the conversion visits -/

/-- The nodes that the conversion of `contents` meets, each with the anchors that are being expanded there. -/
inductive Visits (anchors : AnchorTable) (contents : Node) : Expanding → Node → Prop where
  | contents : Visits anchors contents (Expanding.enter [] contents) contents
  | value {expanding : Expanding} {pairs : List (Pair Node)} {flow : Bool} {anchor : Option AnchorId}
    {range : Option Range} {pair : Pair Node}
    (h : Visits anchors contents expanding (.mapping pairs flow anchor range)) (hpair : pair ∈ pairs) :
    Visits anchors contents (expanding.enter pair.value) pair.value
  | item {expanding : Expanding} {items : List Node} {flow : Bool} {anchor : Option AnchorId} {range : Option Range}
    {item : Node} (h : Visits anchors contents expanding (.sequence items flow anchor range)) (hitem : item ∈ items) :
    Visits anchors contents (expanding.enter item) item
  | target {expanding : Expanding} {id : AnchorId} {range : Option Range} {target : Node}
    (h : Visits anchors contents expanding (.aliasOf id range)) (hid : id ∉ expanding)
    (hfind : anchors.find? id = some target) :
    Visits anchors contents (id :: expanding) (target.withRange (range.or target.range))

theorem Visits.followable {contents : Node} {expanding : Expanding} {node : Node} (hanchors : anchors.Expandable)
    (hcontents : anchors.Followable (Expanding.enter [] contents) contents)
    (h : Visits anchors contents expanding node) : anchors.Followable expanding node := by
  induction h with
  | contents => exact hcontents
  | value _ hpair ih => exact ih.inner hanchors (Node.mem_children_mapping.2 ⟨_, hpair, Or.inr rfl⟩)
  | item _ hitem ih => exact ih.inner hanchors hitem
  | target _ _ hfind ih => exact ih.referred hanchors hfind _

/-- An alias that is followed is converted as its definition is, at the place of the alias. -/
theorem ofNode_aliasOf_eq_relocated (table : PositionTable) (hanchors : anchors.Expandable) {expanding : Expanding}
    {id : AnchorId} {range : Option Range} {target : Node} (h : anchors.Followable expanding (.aliasOf id range))
    (hfind : anchors.find? id = some target) :
    ofNode table anchors expanding (.aliasOf id range) =
      relocated (table.location range) target (ofContents table anchors target) := by
  have hfollow := h.referred hanchors hfind range
  obtain ⟨expanded, hexpanded⟩ := Node.exists_expands hanchors hfollow
  have hfollowAlone : anchors.Followable [id] (target.withRange range) := hfollow.mono (by simp)
  have hunder := ofNode_expands table hanchors .empty [] hexpanded hfollow
  have halone := ofNode_expands table hanchors .empty [] hexpanded hfollowAlone
  have henter : Expanding.enter [] target = [id] := by
    rw [Expanding.enter, AnchorTable.anchor_of_find? hfind]
  rw [ofNode_aliasOf_of_some h.not_mem hfind, or_range h, hunder, ← halone,
    ofNode_withRange (AnchorTable.isAlias_of_find? hfind), ofContents, henter]

end Tree

/-! ### Loaded documents -/

namespace Document

variable {source : Text} {version : Version} {events : List MarkedEvent} {doc : Document}

theorem expandable_of_ofEvents (h : ofEvents source version events = .ok doc) (hdistinct : DistinctAnchors events)
    (hacyclic : doc.anchors.Acyclic) : doc.anchors.Expandable := by
  refine ⟨hacyclic, fun id node hfind => ⟨(ranged_of_ofEvents h).2 id node hfind, fun child hchild => ?_, by simp⟩⟩
  exact fun inner id' hw hid => (records_of_ofEvents hdistinct h).2 id node hfind inner id' (.inside hchild hw) hid

theorem followable_contents {contents : Node} (h : ofEvents source version events = .ok doc)
    (hdistinct : DistinctAnchors events) (hacyclic : doc.anchors.Acyclic) (hcontents : doc.contents = some contents) :
    doc.anchors.Followable (Expanding.enter [] contents) contents := by
  have hrecords := (records_of_ofEvents hdistinct h).1 contents hcontents
  refine ⟨(ranged_of_ofEvents h).1 contents hcontents, fun child hchild => ?_, fun id hid hreach => ?_⟩
  · exact fun inner id hw hid => hrecords inner id (.inside hchild hw) hid
  · rcases Expanding.mem_enter.1 hid with hid | hid
    · exact hacyclic id (hreach.transGen (hrecords contents id (.refl _) hid))
    · cases hid

end Document

open LocatedYaml.Tree

/-- Contents without two nodes of one anchor and without cycles of aliases are converted as their only expansion, with
the same failure if there is one.  Every alias that the conversion meets, as a value or as a key, is followed, and an
alias that stands for a value gives what its definition gives, at another location. -/
theorem conversion_of_expansion {source : Text} {chosen : Version} {events : List MarkedEvent}
    {doc : LocatedYaml.Document} {contents : Node}
    (hload : LocatedYaml.Document.ofReadings source chosen (events.map .ok) = .ok doc)
    (hdistinct : DistinctAnchors events) (hacyclic : doc.anchors.Acyclic) (hcontents : doc.contents = some contents)
    (table : PositionTable) :
    (∃ expanded, (∀ node, contents.Expands doc.anchors node ↔ node = expanded) ∧ (∀ id, ¬ expanded.Mentions id) ∧
      ∀ anchors, ofContents table doc.anchors contents = ofContents table anchors expanded) ∧
    (∀ expanding id range, Visits doc.anchors contents expanding (.aliasOf id range) → id ∉ expanding ∧
      ∀ target, doc.resolve? id = some target →
        ofNode table doc.anchors expanding (.aliasOf id range) =
          relocated (table.location range) target (ofContents table doc.anchors target)) ∧
    ∀ expanding pairs flow anchor range', Visits doc.anchors contents expanding (.mapping pairs flow anchor range') →
      ∀ pair ∈ pairs, ∀ id range, pair.key = .aliasOf id range → id ∉ expanding ∧
        ∀ target, doc.resolve? id = some target →
          keyNode doc.anchors expanding pair.key = target.withRange range := by
  rw [LocatedYaml.Document.ofReadings_map_ok] at hload
  have hanchors := Document.expandable_of_ofEvents hload hdistinct hacyclic
  have hfollow := Document.followable_contents hload hdistinct hacyclic hcontents
  obtain ⟨expanded, hexpanded⟩ := Node.exists_expands hanchors hfollow
  refine ⟨⟨expanded, fun node => ⟨fun h => h.eq hexpanded, fun h => h ▸ hexpanded⟩, ?_, ?_⟩, ?_, ?_⟩
  · exact fun id => hexpanded.not_mentions id
  · exact fun anchors => ofNode_expands table hanchors anchors (Expanding.enter [] expanded) hexpanded hfollow
  · intro expanding id range hvisits
    have halias := hvisits.followable hanchors hfollow
    exact ⟨halias.not_mem, fun target hfind => ofNode_aliasOf_eq_relocated table hanchors halias hfind⟩
  · intro expanding pairs flow anchor range' hvisits pair hpair id range hkey
    have hmem : pair.key ∈ (Node.mapping pairs flow anchor range').children :=
      Node.mem_children_mapping.2 ⟨pair, hpair, Or.inl rfl⟩
    have halias := ((hvisits.followable hanchors hfollow).inner hanchors hmem).leave
    rw [hkey] at halias ⊢
    exact ⟨halias.not_mem, fun target hfind => keyNode_of_followable halias hfind⟩

/-- `[&a x, &b [*a], *b]`: an alias inside an anchored node, and an alias of that node. -/
theorem conversion_of_expansion_of_chain :
    let source : Text := "[&a x, &b [*a], *b]".toList
    let events : List MarkedEvent :=
      [⟨.documentStart, 0⟩, ⟨.sequenceStart 0, 0⟩, ⟨.scalar "x".toList .plain 1 none, 4⟩, ⟨.sequenceStart 2, 10⟩,
        ⟨.aliasOf 1, 11⟩, ⟨.sequenceEnd, 13⟩, ⟨.aliasOf 2, 16⟩, ⟨.sequenceEnd, 18⟩, ⟨.documentEnd, 19⟩]
    ∃ doc contents expanded, LocatedYaml.Document.ofReadings source .v1_2 (events.map .ok) = .ok doc ∧
      DistinctAnchors events ∧ doc.anchors.Acyclic ∧ doc.contents = some contents ∧
      contents.Expands doc.anchors expanded ∧
      ∀ table, ofContents table doc.anchors contents = ofContents table .empty expanded := by
  intro source events
  obtain ⟨doc, contents, hload, hcontents, hentries⟩ : ∃ doc contents,
      LocatedYaml.Document.ofReadings source .v1_2 (events.map .ok) = .ok doc ∧ doc.contents = some contents ∧
      doc.anchors.entries =
        [(2, .sequence [.aliasOf 1 (some ⟨11, 13⟩)] true (some 2) (some ⟨10, 14⟩)),
          (1, .scalar ⟨.string "x".toList, "x".toList, .plain, none, some 1, some ⟨4, 5⟩⟩)] :=
    ⟨_, _, rfl, rfl, rfl⟩
  have hacyclic : doc.anchors.Acyclic := by
    refine AnchorTable.acyclic_of_lt fun id id' hrefers => ?_
    obtain ⟨node, hfind, hmentions⟩ := hrefers
    have hmem := AnchorTable.mem_of_find? hfind
    rw [hentries] at hmem
    rcases List.mem_cons.1 hmem with heq | hmem
    · obtain ⟨rfl, rfl⟩ := Prod.mk.inj heq
      rcases Node.mentions_iff.1 hmentions with ⟨range, h⟩ | ⟨child, hchild, h⟩
      · cases h
      · obtain rfl := List.mem_singleton.1 hchild
        rcases Node.mentions_iff.1 h with ⟨range, h⟩ | ⟨child, hchild, -⟩
        · obtain ⟨rfl, -⟩ := Node.aliasOf.inj h
          decide
        · cases hchild
    · obtain ⟨rfl, rfl⟩ := Prod.mk.inj (List.mem_singleton.1 hmem)
      exact absurd hmentions (Node.not_mentions_scalar _ id')
  have hdistinct : DistinctAnchors events := by decide
  have hsubst := fun table => (conversion_of_expansion hload hdistinct hacyclic hcontents table).1
  obtain ⟨expanded, hexpanded, -, -⟩ := hsubst (PositionTable.ofText source)
  refine ⟨doc, contents, expanded, hload, hdistinct, hacyclic, hcontents, (hexpanded expanded).2 rfl, fun table => ?_⟩
  obtain ⟨other, hother, -, hconv⟩ := hsubst table
  obtain rfl := (hother expanded).1 ((hexpanded expanded).2 rfl)
  exact hconv .empty

end LocatedYaml
