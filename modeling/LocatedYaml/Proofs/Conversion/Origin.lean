import LocatedYaml.Proofs.Conversion.Basic
import LocatedYaml.Proofs.Node.Inside
import LocatedYaml.Proofs.Result
import LocatedYaml.Proofs.Tree.Inside
import Mathlib.Data.List.Forall2

/-!
# Where the parts of a tree come from

A tree and the node it is converted from are walked through together: members with pairs, elements with items, and the
target of an alias in place of the alias (`Tree.Origin`).  At every place of the walk the tree is the conversion of the
node (`Origin.ofNode`), and the walk misses no part of the tree (`Origin.exists_of_within`).
-/

namespace LocatedYaml

namespace Tree

variable {table : PositionTable} {anchors : AnchorTable} {expanding : Expanding} {contents node : Node}
  {body tree : Tree}

/-! ### What a conversion has made -/

theorem ofScalar_eq_ok {scalar : Scalar} (h : ofScalar table scalar = .ok tree) :
    tree.loc = table.location scalar.range ∧ tree.members? = none ∧ tree.elements? = none := by
  rw [ofScalar] at h
  cases hvalue : scalar.value <;> simp only [hvalue] at h <;> cases h <;> exact ⟨rfl, rfl, rfl⟩

theorem ofNode_mapping_eq_ok {pairs : List (Pair Node)} {flow : Bool} {anchor : Option AnchorId} {range : Option Range}
    (h : Tree.ofNode table anchors expanding (.mapping pairs flow anchor range) = .ok tree) :
    ∃ members, ofPairs table anchors expanding pairs = .ok members ∧ tree = .object members (table.location range) := by
  rw [ofNode_mapping] at h
  exact map_eq_ok h

theorem ofNode_sequence_eq_ok {items : List Node} {flow : Bool} {anchor : Option AnchorId} {range : Option Range}
    (h : Tree.ofNode table anchors expanding (.sequence items flow anchor range) = .ok tree) :
    ∃ elements, ofItems table anchors expanding items = .ok elements ∧
      tree = .array elements (table.location range) := by
  rw [ofNode_sequence] at h
  exact map_eq_ok h

/-- An alias becomes null or what its target becomes in its place. -/
theorem ofNode_aliasOf_eq_ok {id : AnchorId} {range : Option Range}
    (h : Tree.ofNode table anchors expanding (.aliasOf id range) = .ok tree) :
    tree = .null (table.location range) ∨ ∃ target, id ∉ expanding ∧ anchors.find? id = some target ∧
      (target.withRange (range.or target.range)).isAlias = false ∧
      Tree.ofNode table anchors (id :: expanding) (target.withRange (range.or target.range)) = .ok tree := by
  by_cases hid : id ∈ expanding
  · rw [ofNode_aliasOf_of_mem hid] at h
    exact Or.inl (Except.ok.inj h).symm
  · cases hfind : anchors.find? id with
    | none =>
      rw [ofNode_aliasOf_of_none hfind] at h
      exact Or.inl (Except.ok.inj h).symm
    | some target =>
      rw [ofNode_aliasOf_of_some hid hfind] at h
      refine Or.inr ⟨target, hid, rfl, ?_, h⟩
      rw [Node.isAlias_withRange]
      exact AnchorTable.isAlias_of_find? hfind

/-- The member is made of the pair. -/
structure MadeOfPair (table : PositionTable) (anchors : AnchorTable) (expanding : Expanding) (pair : Pair Node)
    (member : Member Tree) : Prop where
  name : nameOf table (keyNode anchors expanding pair.key) = .ok member.name
  value : Tree.ofNode table anchors (expanding.enter pair.value) pair.value = .ok member.value
  loc : member.loc = memberLoc member.name pair member.value

/-- The element is made of the item. -/
structure MadeOfItem (table : PositionTable) (anchors : AnchorTable) (expanding : Expanding) (item : Node)
    (element : Element Tree) : Prop where
  value : Tree.ofNode table anchors (expanding.enter item) item = .ok element.value
  loc : element.loc = table.location item.range

theorem forall₂_of_ofPairs {pairs : List (Pair Node)} {members : List (Member Tree)}
    (h : ofPairs table anchors expanding pairs = .ok members) :
    List.Forall₂ (MadeOfPair table anchors expanding) pairs members := by
  induction pairs generalizing members with
  | nil =>
    rw [ofPairs_nil] at h
    obtain rfl := Except.ok.inj h
    exact .nil
  | cons pair pairs ih =>
    rw [ofPairs] at h
    obtain ⟨name, hname, h⟩ := bind_eq_ok h
    obtain ⟨value, hvalue, h⟩ := bind_eq_ok h
    obtain ⟨rest, hrest, h⟩ := bind_eq_ok h
    obtain rfl := Except.ok.inj h
    exact .cons ⟨hname, hvalue, rfl⟩ (ih hrest)

theorem forall₂_of_ofItems {items : List Node} {elements : List (Element Tree)}
    (h : ofItems table anchors expanding items = .ok elements) :
    List.Forall₂ (MadeOfItem table anchors expanding) items elements := by
  induction items generalizing elements with
  | nil =>
    rw [ofItems_nil] at h
    obtain rfl := Except.ok.inj h
    exact .nil
  | cons item items ih =>
    rw [ofItems] at h
    obtain ⟨value, hvalue, h⟩ := bind_eq_ok h
    obtain ⟨rest, hrest, h⟩ := bind_eq_ok h
    obtain rfl := Except.ok.inj h
    exact .cons ⟨hvalue, rfl⟩ (ih hrest)

/-- The members of an object are made of the pairs of its mapping. -/
theorem forall₂_of_object {pairs : List (Pair Node)} {flow : Bool} {anchor : Option AnchorId} {range : Option Range}
    {members : List (Member Tree)} {loc : Location}
    (h : Tree.ofNode table anchors expanding (.mapping pairs flow anchor range) = .ok (.object members loc)) :
    List.Forall₂ (MadeOfPair table anchors expanding) pairs members := by
  obtain ⟨members', hpairs, heq⟩ := ofNode_mapping_eq_ok h
  obtain ⟨rfl, -⟩ := Tree.object.inj heq
  exact forall₂_of_ofPairs hpairs

/-- The elements of an array are made of the items of its sequence. -/
theorem forall₂_of_array {items : List Node} {flow : Bool} {anchor : Option AnchorId} {range : Option Range}
    {elements : List (Element Tree)} {loc : Location}
    (h : Tree.ofNode table anchors expanding (.sequence items flow anchor range) = .ok (.array elements loc)) :
    List.Forall₂ (MadeOfItem table anchors expanding) items elements := by
  obtain ⟨elements', hitems, heq⟩ := ofNode_sequence_eq_ok h
  obtain ⟨rfl, -⟩ := Tree.array.inj heq
  exact forall₂_of_ofItems hitems

/-! ### Walking through a tree and its node -/

/-- `Origin anchors contents body expanding node tree`: at some place of `body`, which comes from `contents`, stands
`tree`, which comes from `node`; `expanding` are the anchors being expanded there.  The tree of an alias that is
followed also comes from the node that the alias refers to. -/
inductive Origin (anchors : AnchorTable) (contents : Node) (body : Tree) : Expanding → Node → Tree → Prop where
  | contents : Origin anchors contents body (Expanding.enter [] contents) contents body
  | member {expanding : Expanding} {pairs : List (Pair Node)} {flow : Bool} {anchor : Option AnchorId}
    {range : Option Range} {members : List (Member Tree)} {loc : Location} {pair : Pair Node} {member : Member Tree}
    (h : Origin anchors contents body expanding (.mapping pairs flow anchor range) (.object members loc))
    (hmember : (pair, member) ∈ pairs.zip members) :
    Origin anchors contents body (expanding.enter pair.value) pair.value member.value
  | element {expanding : Expanding} {items : List Node} {flow : Bool} {anchor : Option AnchorId}
    {range : Option Range} {elements : List (Element Tree)} {loc : Location} {item : Node} {element : Element Tree}
    (h : Origin anchors contents body expanding (.sequence items flow anchor range) (.array elements loc))
    (helement : (item, element) ∈ items.zip elements) :
    Origin anchors contents body (expanding.enter item) item element.value
  | target {expanding : Expanding} {id : AnchorId} {range : Option Range} {target : Node} {tree : Tree}
    (h : Origin anchors contents body expanding (.aliasOf id range) tree) (hid : id ∉ expanding)
    (hfind : anchors.find? id = some target) :
    Origin anchors contents body (id :: expanding) (target.withRange (range.or target.range)) tree

theorem Origin.ofNode (hbody : ofContents table anchors contents = .ok body)
    (h : Origin anchors contents body expanding node tree) : Tree.ofNode table anchors expanding node = .ok tree := by
  induction h with
  | contents => exact hbody
  | member _ hmember ih => exact (List.forall₂_zip (forall₂_of_object ih) hmember).value
  | element _ helement ih => exact (List.forall₂_zip (forall₂_of_array ih) helement).value
  | target _ hid hfind ih => rwa [ofNode_aliasOf_of_some hid hfind] at ih

/-! ### Nothing is missed -/

/-- Only a mapping becomes an object, only a sequence an array. -/
theorem kind_of_ofNode (halias : node.isAlias = false) (h : Tree.ofNode table anchors expanding node = .ok tree) :
    node.isMapping = tree.members?.isSome ∧ node.isSequence = tree.elements?.isSome := by
  cases node with
  | aliasOf id range => cases halias
  | scalar scalar =>
    rw [ofNode_scalar] at h
    obtain ⟨-, hmembers, helements⟩ := ofScalar_eq_ok h
    rw [hmembers, helements]
    exact ⟨rfl, rfl⟩
  | mapping pairs flow anchor range =>
    obtain ⟨members, -, rfl⟩ := ofNode_mapping_eq_ok h
    exact ⟨rfl, rfl⟩
  | sequence items flow anchor range =>
    obtain ⟨elements, -, rfl⟩ := ofNode_sequence_eq_ok h
    exact ⟨rfl, rfl⟩

/-- What an alias becomes also comes from its target, if the alias is followed; an alias that is not followed is
null. -/
theorem Origin.settled (hbody : ofContents table anchors contents = .ok body)
    (h : Origin anchors contents body expanding node tree) :
    ∃ expanding' node', Origin anchors contents body expanding' node' tree ∧
      node'.isMapping = tree.members?.isSome ∧ node'.isSequence = tree.elements?.isSome := by
  have hnode := h.ofNode hbody
  cases node with
  | aliasOf id range =>
    rcases ofNode_aliasOf_eq_ok hnode with rfl | ⟨target, hid, hfind, halias, htarget⟩
    · exact ⟨_, _, h, rfl, rfl⟩
    · exact ⟨_, _, h.target hid hfind, kind_of_ofNode halias htarget⟩
  | _ => exact ⟨_, _, h, kind_of_ofNode rfl hnode⟩

private theorem exists_mem_zip {α β : Type} {R : α → β → Prop} {xs : List α} {ys : List β} (h : List.Forall₂ R xs ys)
    {y : β} (hy : y ∈ ys) : ∃ x, (x, y) ∈ xs.zip ys := by
  have hsnd : (xs.zip ys).map Prod.snd = ys := List.map_snd_zip (Nat.le_of_eq h.length_eq.symm)
  rw [← hsnd] at hy
  obtain ⟨⟨x, y'⟩, hmem, rfl⟩ := List.mem_map.1 hy
  exact ⟨x, hmem⟩

/-- An object comes from a mapping with a pair for each of its members. -/
theorem Origin.mapping_of_object {members : List (Member Tree)} {loc : Location}
    (hbody : ofContents table anchors contents = .ok body)
    (h : Origin anchors contents body expanding node (.object members loc)) :
    ∃ expanding pairs flow anchor range,
      Origin anchors contents body expanding (.mapping pairs flow anchor range) (.object members loc) ∧
      ∀ member ∈ members, ∃ pair, (pair, member) ∈ pairs.zip members := by
  obtain ⟨expanding, node, h, hmapping, -⟩ := h.settled hbody
  cases node with
  | mapping pairs flow anchor range =>
    exact ⟨expanding, pairs, flow, anchor, range, h, fun _ => exists_mem_zip (forall₂_of_object (h.ofNode hbody))⟩
  | _ => cases hmapping

/-- An array comes from a sequence with an item for each of its elements. -/
theorem Origin.sequence_of_array {elements : List (Element Tree)} {loc : Location}
    (hbody : ofContents table anchors contents = .ok body)
    (h : Origin anchors contents body expanding node (.array elements loc)) :
    ∃ expanding items flow anchor range,
      Origin anchors contents body expanding (.sequence items flow anchor range) (.array elements loc) ∧
      ∀ element ∈ elements, ∃ item, (item, element) ∈ items.zip elements := by
  obtain ⟨expanding, node, h, -, hsequence⟩ := h.settled hbody
  cases node with
  | sequence items flow anchor range =>
    exact ⟨expanding, items, flow, anchor, range, h, fun _ => exists_mem_zip (forall₂_of_array (h.ofNode hbody))⟩
  | _ => cases hsequence

theorem Origin.exists_child {child : Tree} (hbody : ofContents table anchors contents = .ok body)
    (h : Origin anchors contents body expanding node tree) (hchild : child ∈ tree.children) :
    ∃ expanding' node', Origin anchors contents body expanding' node' child := by
  cases tree with
  | object members loc =>
    obtain ⟨expanding, pairs, flow, anchor, range, h, hzip⟩ := h.mapping_of_object hbody
    obtain ⟨member, hmember, rfl⟩ := List.mem_map.1 hchild
    obtain ⟨pair, hpair⟩ := hzip member hmember
    exact ⟨_, _, h.member hpair⟩
  | array elements loc =>
    obtain ⟨expanding, items, flow, anchor, range, h, hzip⟩ := h.sequence_of_array hbody
    obtain ⟨element, helement, rfl⟩ := List.mem_map.1 hchild
    obtain ⟨item, hitem⟩ := hzip element helement
    exact ⟨_, _, h.element hitem⟩
  | _ => cases hchild

/-- Every part of the tree comes from somewhere. -/
theorem Origin.exists_of_within (hbody : ofContents table anchors contents = .ok body) (h : tree.Within body) :
    ∃ expanding node, Origin anchors contents body expanding node tree := by
  have hinside : ∀ outer, tree.Within outer → (∃ expanding node, Origin anchors contents body expanding node outer) →
      ∃ expanding node, Origin anchors contents body expanding node tree := fun outer hw => by
    induction hw with
    | refl => exact id
    | inside hchild _ ih =>
      rintro ⟨expanding, node, h⟩
      exact ih (h.exists_child hbody hchild)
  exact hinside body h ⟨_, _, .contents⟩

/-! ### What the nodes have in common -/

/-- What holds everywhere in the contents and in the anchored nodes, and of a node that is moved to the place of an
alias, holds of every node of the walk. -/
theorem Origin.everywhere {P : Node → Prop} (hcontents : contents.Everywhere P)
    (hanchors : ∀ id target, anchors.find? id = some target → target.Everywhere P)
    (hmoved : ∀ id range target, anchors.find? id = some target → P (.aliasOf id range) → P target →
      P (target.withRange (range.or target.range)))
    (h : Origin anchors contents body expanding node tree) : node.Everywhere P := by
  induction h with
  | contents => exact hcontents
  | member _ hmember ih => exact ih.child (Node.value_mem_children (List.of_mem_zip hmember).1)
  | element _ helement ih => exact ih.child (List.of_mem_zip helement).1
  | @target _ id range target _ _ _ hfind ih =>
    have htarget := hanchors id target hfind
    refine .of_children (hmoved id range target hfind ih.self htarget.self) fun child hmem => ?_
    rw [Node.children_withRange] at hmem
    exact htarget.child hmem

end Tree

end LocatedYaml
