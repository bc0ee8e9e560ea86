import LocatedYaml.Proofs.Conversion.Basic
import LocatedYaml.Proofs.Document.Anchors
import LocatedYaml.Proofs.Result

/-!
# Where a conversion fails

The expanded contents of a document can be walked through in source order, each key before its value and the target of
an alias in place of the alias (`Walk`).  The walk ends (`exists_walk`) and can be made in one way only (`Walk.eq`).  A
conversion fails exactly where the walk first meets a node that has no place in a tree: binary data or a timestamp as a
value, a collection as a key (`failure_of_conversion`).
-/

namespace LocatedYaml

/-! ### The walk -/

/-- A node that the walk meets as a key or as a value, and the range that it has there. -/
inductive Spot where
  | key (node : Node) (range : Option Range)
  | value (node : Node) (range : Option Range)

/-- The failure that a spot is the reason for, if it is one.  A scalar can be a key whatever its value. -/
def Spot.fault? (table : PositionTable) : Spot → Option ConvertError
  | .key (.mapping ..) range => some (.unsupportedKey .mapping (table.location range))
  | .key (.sequence ..) range => some (.unsupportedKey .sequence (table.location range))
  | .key (.scalar _) _ | .key (.aliasOf ..) _ => none
  | .value (.scalar s) range =>
    match s.value with
    | .binary _ => some (.unsupportedScalar .binary (table.location range))
    | .timestamp _ => some (.unsupportedScalar .timestamp (table.location range))
    | _ => none
  | .value _ _ => none

/-- `KeySpot anchors expanding key spot`: the key makes `spot`.  What is inside a key is not walked through. -/
inductive KeySpot (anchors : AnchorTable) (expanding : Expanding) : Node → Spot → Prop where
  | self {key : Node} (halias : key.isAlias = false) : KeySpot anchors expanding key (.key key key.range)
  | entered {id : AnchorId} {range : Option Range} {target : Node} (hid : id ∉ expanding)
    (hfind : anchors.find? id = some target) : KeySpot anchors expanding (.aliasOf id range) (.key target range)
  | passed {id : AnchorId} {range : Option Range} (h : id ∈ expanding ∨ anchors.find? id = none) :
    KeySpot anchors expanding (.aliasOf id range) (.key (.aliasOf id range) range)

mutual

/-- `Walk anchors expanding range node spots`: the walk through `node`, which stands at `range`, meets `spots` in this
order; `expanding` are the anchors being expanded, that of the node included.  An alias leads to its target, which then
stands at the range of the alias, unless the target is being expanded or there is none. -/
inductive Walk (anchors : AnchorTable) : Expanding → Option Range → Node → List Spot → Prop where
  | scalar {expanding : Expanding} {range : Option Range} (s : Scalar) :
    Walk anchors expanding range (.scalar s) [.value (.scalar s) range]
  | mapping {expanding : Expanding} {range place : Option Range} {pairs : List (Pair Node)} {flow : Bool}
    {anchor : Option AnchorId} {spots : List Spot} (h : WalkPairs anchors expanding pairs spots) :
    Walk anchors expanding range (.mapping pairs flow anchor place)
      (.value (.mapping pairs flow anchor place) range :: spots)
  | sequence {expanding : Expanding} {range place : Option Range} {items : List Node} {flow : Bool}
    {anchor : Option AnchorId} {spots : List Spot} (h : WalkItems anchors expanding items spots) :
    Walk anchors expanding range (.sequence items flow anchor place)
      (.value (.sequence items flow anchor place) range :: spots)
  | entered {expanding : Expanding} {range place : Option Range} {id : AnchorId} {target : Node} {spots : List Spot}
    (hid : id ∉ expanding) (hfind : anchors.find? id = some target)
    (h : Walk anchors (id :: expanding) range target spots) : Walk anchors expanding range (.aliasOf id place) spots
  | passed {expanding : Expanding} {range place : Option Range} {id : AnchorId}
    (h : id ∈ expanding ∨ anchors.find? id = none) :
    Walk anchors expanding range (.aliasOf id place) [.value (.aliasOf id place) range]

inductive WalkPairs (anchors : AnchorTable) : Expanding → List (Pair Node) → List Spot → Prop where
  | nil {expanding : Expanding} : WalkPairs anchors expanding [] []
  | cons {expanding : Expanding} {key value : Node} {pairs : List (Pair Node)} {spot : Spot} {inside spots : List Spot}
    (hkey : KeySpot anchors expanding key spot)
    (hvalue : Walk anchors (expanding.enter value) value.range value inside)
    (h : WalkPairs anchors expanding pairs spots) :
    WalkPairs anchors expanding (⟨key, value⟩ :: pairs) (spot :: (inside ++ spots))

inductive WalkItems (anchors : AnchorTable) : Expanding → List Node → List Spot → Prop where
  | nil {expanding : Expanding} : WalkItems anchors expanding [] []
  | cons {expanding : Expanding} {item : Node} {items : List Node} {inside spots : List Spot}
    (hitem : Walk anchors (expanding.enter item) item.range item inside)
    (h : WalkItems anchors expanding items spots) : WalkItems anchors expanding (item :: items) (inside ++ spots)

end

variable {table : PositionTable} {anchors : AnchorTable} {expanding : Expanding} {range : Option Range}

/-! ### One walk for every node -/

private theorem not_passed {id : AnchorId} {target : Node} (hid : id ∉ expanding)
    (hfind : anchors.find? id = some target) : ¬(id ∈ expanding ∨ anchors.find? id = none) := by
  rw [hfind]
  simpa using hid

theorem exists_keySpot (anchors : AnchorTable) (expanding : Expanding) (key : Node) :
    ∃ spot, KeySpot anchors expanding key spot := by
  cases key with
  | aliasOf id range =>
    by_cases hid : id ∈ expanding
    · exact ⟨_, .passed (Or.inl hid)⟩
    · cases hfind : anchors.find? id with
      | none => exact ⟨_, .passed (Or.inr hfind)⟩
      | some target => exact ⟨_, .entered hid hfind⟩
  | _ => exact ⟨_, .self rfl⟩

theorem KeySpot.eq {key : Node} {spot spot' : Spot} (h : KeySpot anchors expanding key spot)
    (h' : KeySpot anchors expanding key spot') : spot = spot' := by
  cases h with
  | self halias =>
    cases h' with
    | self => rfl
    | entered => cases halias
    | passed => cases halias
  | entered hid hfind =>
    cases h' with
    | self halias => cases halias
    | entered hid' hfind' => rw [Option.some.inj (hfind.symm.trans hfind')]
    | passed h' => exact absurd h' (not_passed hid hfind)
  | passed h =>
    cases h' with
    | self halias => cases halias
    | entered hid' hfind' => exact absurd h (not_passed hid' hfind')
    | passed => rfl

mutual

theorem exists_walk (anchors : AnchorTable) (expanding : Expanding) (range : Option Range) (node : Node) :
    ∃ spots, Walk anchors expanding range node spots := by
  match node with
  | .scalar s => exact ⟨_, .scalar s⟩
  | .mapping pairs flow anchor place =>
    obtain ⟨spots, h⟩ := exists_walkPairs anchors expanding pairs
    exact ⟨_, .mapping h⟩
  | .sequence items flow anchor place =>
    obtain ⟨spots, h⟩ := exists_walkItems anchors expanding items
    exact ⟨_, .sequence h⟩
  | .aliasOf id place =>
    by_cases hid : id ∈ expanding
    · exact ⟨_, .passed (Or.inl hid)⟩
    · cases hfind : anchors.find? id with
      | none => exact ⟨_, .passed (Or.inr hfind)⟩
      | some target =>
        obtain ⟨spots, h⟩ := exists_walk anchors (id :: expanding) range target
        exact ⟨spots, .entered hid hfind h⟩
termination_by (anchors.unexpanded expanding, sizeOf node)
decreasing_by
  · exact Prod.Lex.right _ (by rw [Node.mapping.sizeOf_spec]; omega)
  · exact Prod.Lex.right _ (by rw [Node.sequence.sizeOf_spec]; omega)
  · exact Prod.Lex.left _ _ (AnchorTable.unexpanded_lt hfind hid)

theorem exists_walkPairs (anchors : AnchorTable) (expanding : Expanding) (pairs : List (Pair Node)) :
    ∃ spots, WalkPairs anchors expanding pairs spots := by
  match pairs with
  | [] => exact ⟨_, .nil⟩
  | ⟨key, value⟩ :: pairs =>
    obtain ⟨spot, hkey⟩ := exists_keySpot anchors expanding key
    obtain ⟨inside, hvalue⟩ := exists_walk anchors (expanding.enter value) value.range value
    obtain ⟨spots, h⟩ := exists_walkPairs anchors expanding pairs
    exact ⟨_, .cons hkey hvalue h⟩
termination_by (anchors.unexpanded expanding, sizeOf pairs)
decreasing_by
  · exact anchors.unexpanded_enter_lex expanding value (by rw [List.cons.sizeOf_spec, Pair.mk.sizeOf_spec]; omega)
  · exact Prod.Lex.right _ (by rw [List.cons.sizeOf_spec, Pair.mk.sizeOf_spec]; omega)

theorem exists_walkItems (anchors : AnchorTable) (expanding : Expanding) (items : List Node) :
    ∃ spots, WalkItems anchors expanding items spots := by
  match items with
  | [] => exact ⟨_, .nil⟩
  | item :: items =>
    obtain ⟨inside, hitem⟩ := exists_walk anchors (expanding.enter item) item.range item
    obtain ⟨spots, h⟩ := exists_walkItems anchors expanding items
    exact ⟨_, .cons hitem h⟩
termination_by (anchors.unexpanded expanding, sizeOf items)
decreasing_by
  · exact anchors.unexpanded_enter_lex expanding item (by rw [List.cons.sizeOf_spec]; omega)
  · exact Prod.Lex.right _ (by rw [List.cons.sizeOf_spec]; omega)

end

mutual

theorem Walk.eq : ∀ {expanding : Expanding} {range : Option Range} {node : Node} {a b : List Spot},
    Walk anchors expanding range node a → Walk anchors expanding range node b → a = b
  | _, _, _, _, _, .scalar _, .scalar _ => rfl
  | _, _, _, _, _, .mapping ha, .mapping hb => by rw [ha.eq hb]
  | _, _, _, _, _, .sequence ha, .sequence hb => by rw [ha.eq hb]
  | _, _, _, _, _, .entered _ hfind ha, .entered _ hfind' hb => ha.eq (Option.some.inj (hfind'.symm.trans hfind) ▸ hb)
  | _, _, _, _, _, .entered hid hfind _, .passed h => absurd h (not_passed hid hfind)
  | _, _, _, _, _, .passed h, .entered hid hfind _ => absurd h (not_passed hid hfind)
  | _, _, _, _, _, .passed _, .passed _ => rfl

theorem WalkPairs.eq : ∀ {expanding : Expanding} {pairs : List (Pair Node)} {a b : List Spot},
    WalkPairs anchors expanding pairs a → WalkPairs anchors expanding pairs b → a = b
  | _, _, _, _, .nil, .nil => rfl
  | _, _, _, _, .cons hkey hvalue ha, .cons hkey' hvalue' hb => by
    rw [hkey.eq hkey', hvalue.eq hvalue', ha.eq hb]

theorem WalkItems.eq : ∀ {expanding : Expanding} {items : List Node} {a b : List Spot},
    WalkItems anchors expanding items a → WalkItems anchors expanding items b → a = b
  | _, _, _, _, .nil, .nil => rfl
  | _, _, _, _, .cons hitem ha, .cons hitem' hb => by rw [hitem.eq hitem', ha.eq hb]

end

/-! ### Nodes -/

/-- All aliases inside the anchored nodes stand in the source. -/
def AnchorTable.Ranged (anchors : AnchorTable) : Prop :=
  ∀ id target, anchors.find? id = some target → target.Ranged

theorem KeySpot.errorOf?_nameOf (table : PositionTable) {key : Node} {spot : Spot}
    (h : KeySpot anchors expanding key spot) (hranged : key.Ranged) :
    errorOf? (Tree.nameOf table (Tree.keyNode anchors expanding key)) = spot.fault? table := by
  cases h with
  | self halias =>
    cases key with
    | aliasOf => cases halias
    | _ => rfl
  | @entered id range target hid hfind =>
    obtain ⟨r, rfl⟩ := Option.isSome_iff_exists.1 (hranged id range (.refl _))
    rw [Tree.keyNode, if_neg hid, AnchorTable.relocated?, hfind, Option.map_some, Option.getD_some, Option.some_or]
    cases target <;> rfl
  | @passed id range h =>
    rw [Tree.keyNode]
    split
    · rfl
    · rw [AnchorTable.relocated?, h.resolve_left ‹_›]
      rfl

mutual

/-- A node fails where the walk through it first meets a fault. -/
theorem Walk.errorOf?_ofNode (table : PositionTable) (hanchors : anchors.Ranged) :
    ∀ {expanding : Expanding} {range : Option Range} {node : Node} {spots : List Spot},
    Walk anchors expanding range node spots → node.Ranged → (node.isAlias → range.isSome) →
      errorOf? (Tree.ofNode table anchors expanding (node.withRange range)) = spots.findSome? (Spot.fault? table)
  | _, _, _, _, .scalar s => by
    intro _ _
    rw [Node.withRange, Tree.ofNode_scalar, Tree.ofScalar, List.findSome?_singleton, Spot.fault?]
    cases s.value <;> rfl
  | _, _, _, _, .mapping h => by
    intro hranged _
    rw [Node.withRange, Tree.ofNode_mapping, errorOf?_map]
    exact h.errorOf?_ofPairs table hanchors fun pair hpair =>
      ⟨hranged.child (Node.key_mem_children hpair), hranged.child (Node.value_mem_children hpair)⟩
  | _, _, _, _, .sequence h => by
    intro hranged _
    rw [Node.withRange, Tree.ofNode_sequence, errorOf?_map]
    exact h.errorOf?_ofItems table hanchors fun item hitem => hranged.child hitem
  | _, range, _, _, @Walk.entered _ _ _ _ _ target _ hid hfind h => by
    intro _ hrange
    have hplace : range.or target.range = range := by
      obtain ⟨r, hr⟩ := Option.isSome_iff_exists.1 (hrange rfl)
      rw [hr, Option.some_or]
    rw [Node.withRange, Tree.ofNode_aliasOf_of_some hid hfind, hplace]
    refine h.errorOf?_ofNode table hanchors (hanchors _ _ hfind) fun halias => ?_
    rw [AnchorTable.isAlias_of_find? hfind] at halias
    cases halias
  | _, _, _, _, .passed h => by
    intro _ _
    rw [Node.withRange]
    rcases h with hid | hfind
    · rw [Tree.ofNode_aliasOf_of_mem hid]
      rfl
    · rw [Tree.ofNode_aliasOf_of_none hfind]
      rfl

theorem WalkPairs.errorOf?_ofPairs (table : PositionTable) (hanchors : anchors.Ranged) :
    ∀ {expanding : Expanding} {pairs : List (Pair Node)} {spots : List Spot},
    WalkPairs anchors expanding pairs spots → (∀ pair ∈ pairs, pair.key.Ranged ∧ pair.value.Ranged) →
      errorOf? (Tree.ofPairs table anchors expanding pairs) = spots.findSome? (Spot.fault? table)
  | _, _, _, .nil => by
    intro _
    rw [Tree.ofPairs_nil]
    rfl
  | expanding, _, _, @WalkPairs.cons _ _ key value pairs spot inside spots hkey hvalue h => by
    intro hranged
    obtain ⟨⟨hrangedKey, hrangedValue⟩, hrest⟩ := List.forall_mem_cons.1 hranged
    have hname := hkey.errorOf?_nameOf table hrangedKey
    have hnode := hvalue.errorOf?_ofNode table hanchors hrangedValue hrangedValue.isSome_range
    have hpairs := h.errorOf?_ofPairs table hanchors hrest
    rw [Node.withRange_range] at hnode
    -- the failure of the chain is that of the key, else that of the value, else that of the later pairs
    have hchain : errorOf? (Tree.ofPairs table anchors expanding (⟨key, value⟩ :: pairs)) =
        (spot.fault? table).or
          ((inside.findSome? (Spot.fault? table)).or ((spots.findSome? (Spot.fault? table)).or none)) := by
      rw [Tree.ofPairs, ← hname, ← hnode, ← hpairs]
      exact errorOf?_bind fun _ => errorOf?_bind fun _ => errorOf?_bind fun _ => rfl
    rw [hchain, ← List.singleton_append, List.findSome?_append, List.findSome?_append, List.findSome?_singleton,
      Option.or_none]

theorem WalkItems.errorOf?_ofItems (table : PositionTable) (hanchors : anchors.Ranged) :
    ∀ {expanding : Expanding} {items : List Node} {spots : List Spot},
    WalkItems anchors expanding items spots → (∀ item ∈ items, item.Ranged) →
      errorOf? (Tree.ofItems table anchors expanding items) = spots.findSome? (Spot.fault? table)
  | _, _, _, .nil => by
    intro _
    rw [Tree.ofItems_nil]
    rfl
  | expanding, _, _, @WalkItems.cons _ _ item items inside spots hitem h => by
    intro hranged
    obtain ⟨hrangedItem, hrest⟩ := List.forall_mem_cons.1 hranged
    have hnode := hitem.errorOf?_ofNode table hanchors hrangedItem hrangedItem.isSome_range
    have hitems := h.errorOf?_ofItems table hanchors hrest
    rw [Node.withRange_range] at hnode
    have hchain : errorOf? (Tree.ofItems table anchors expanding (item :: items)) =
        (inside.findSome? (Spot.fault? table)).or ((spots.findSome? (Spot.fault? table)).or none) := by
      rw [Tree.ofItems, ← hnode, ← hitems]
      exact errorOf?_bind fun _ => errorOf?_bind fun _ => rfl
    rw [hchain, List.findSome?_append, Option.or_none]

end

/-! ### Documents -/

theorem Tree.errorOf?_ofReadings {source : Text} {chosen : Version} {readings : List Reading}
    {doc : LocatedYaml.Document} {contents : Node}
    (hload : LocatedYaml.Document.ofReadings source chosen readings = .ok doc)
    (hcontents : doc.contents = some contents) :
    errorOf? (Tree.Document.ofReadings source chosen readings) =
      errorOf? (Tree.ofContents (.ofText source) doc.anchors contents) := by
  rw [Tree.Document.ofReadings, hload]
  change errorOf? (Tree.Document.ofLoaded source doc) = _
  rw [Tree.Document.ofLoaded, hcontents]
  have hbody : ∀ body, errorOf? (Except.ok ⟨body, (PositionTable.ofText source).documentLocation⟩ :
      Except ConvertError Tree.Document) = none := fun _ => rfl
  exact (errorOf?_bind hbody).trans Option.or_none

/-- There is one walk through the contents of a loaded document.  The conversion fails exactly if the walk meets a
fault, and then with the fault that it meets first; if it meets none, the conversion succeeds. -/
theorem failure_of_conversion {source : Text} {chosen : Version} {readings : List Reading} {doc : Document}
    {contents : Node} (hload : Document.ofReadings source chosen readings = .ok doc)
    (hcontents : doc.contents = some contents) :
    ∃ spots, (∀ other, Walk doc.anchors (Expanding.enter [] contents) contents.range contents other ↔ other = spots) ∧
      (∀ error, Tree.Document.ofReadings source chosen readings = .error error ↔
        ∃ before spot after, spots = before ++ spot :: after ∧
          (∀ earlier ∈ before, earlier.fault? (.ofText source) = none) ∧
          spot.fault? (.ofText source) = some error) ∧
      ((∃ converted, Tree.Document.ofReadings source chosen readings = .ok converted) ↔
        ∀ spot ∈ spots, spot.fault? (.ofText source) = none) := by
  obtain ⟨events, -, hevents⟩ := Document.exists_events_of_ofReadings hload
  obtain ⟨hranged, hanchors⟩ := Document.ranged_of_ofEvents hevents
  have hrangedContents := hranged contents hcontents
  obtain ⟨spots, hwalk⟩ := exists_walk doc.anchors (Expanding.enter [] contents) contents.range contents
  have hfault : errorOf? (Tree.Document.ofReadings source chosen readings) =
      spots.findSome? (Spot.fault? (.ofText source)) := by
    rw [Tree.errorOf?_ofReadings hload hcontents, Tree.ofContents,
      ← hwalk.errorOf?_ofNode _ hanchors hrangedContents hrangedContents.isSome_range, Node.withRange_range]
  refine ⟨spots, fun other => ⟨fun h => h.eq hwalk, fun h => h ▸ hwalk⟩, fun error => ?_, ?_⟩
  · rw [← errorOf?_eq_some_iff, hfault, List.findSome?_eq_some_iff]
    constructor
    · rintro ⟨before, spot, after, hsplit, hspot, hbefore⟩
      exact ⟨before, spot, after, hsplit, hbefore, hspot⟩
    · rintro ⟨before, spot, after, hsplit, hbefore, hspot⟩
      exact ⟨before, spot, after, hsplit, hspot, hbefore⟩
  · rw [← errorOf?_eq_none_iff, hfault, List.findSome?_eq_none_iff]

/-- `{&t 2001-01-01: *t}`: a timestamp can be a key, but not the value that the alias stands for. -/
theorem failure_of_conversion_at_alias :
    let source : Text := "\x7b&t 2001-01-01: *t\x7d".toList
    let readings : List Reading :=
      [⟨.documentStart, 0⟩, ⟨.mappingStart 0, 0⟩, ⟨.scalar "2001-01-01".toList .plain 1 none, 4⟩, ⟨.aliasOf 1, 16⟩,
        ⟨.mappingEnd, 18⟩, ⟨.documentEnd, 19⟩].map .ok
    ∃ doc contents, Document.ofReadings source .v1_1 readings = .ok doc ∧ doc.contents = some contents ∧
      Tree.Document.ofReadings source .v1_1 readings =
        .error (.unsupportedScalar .timestamp ⟨⟨1, 17, 16⟩, ⟨1, 18, 17⟩⟩) := by
  intro source readings
  let date : Scalar := ⟨.timestamp "2001-01-01".toList, "2001-01-01".toList, .plain, none, some 1, some ⟨4, 14⟩⟩
  let place : Option Range := some ⟨16, 18⟩
  let contents : Node := .mapping [⟨.scalar date, .aliasOf 1 place⟩] true none (some ⟨0, 19⟩)
  obtain ⟨doc, hload, hcontents, hfind⟩ : ∃ doc, Document.ofReadings source .v1_1 readings = .ok doc ∧
      doc.contents = some contents ∧ doc.anchors.find? 1 = some (.scalar date) := ⟨_, rfl, rfl, rfl⟩
  obtain ⟨spots, hwalk, herror, -⟩ := failure_of_conversion hload hcontents
  have hspots : [.value contents (some ⟨0, 19⟩), .key (.scalar date) date.range, .value (.scalar date) place] = spots :=
    (hwalk _).1 (.mapping (.cons (.self rfl) (.entered List.not_mem_nil hfind (.scalar date)) .nil))
  refine ⟨doc, contents, hload, hcontents, (herror _).2 ⟨[_, _], _, [], hspots.symm, ?_, rfl⟩⟩
  exact List.forall_mem_cons.2 ⟨rfl, List.forall_mem_singleton.2 rfl⟩

end LocatedYaml
