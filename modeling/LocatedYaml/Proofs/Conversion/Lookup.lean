import LocatedYaml.Proofs.Conversion.Location

/-!
# Looking up before and after conversion

A path is followed through the pairs and the items of a node, or through the members and the elements of a tree.  One
step from a node and one step from its tree find related children or nothing at all (`Tree.child?_of_ofNode`): the
first pair with a key becomes the first member with that name, since a key is a scalar and a name is its text.  Only an
alias gives its tree children that the node itself has not.

`lookup_of_conversion` says this for paths: what a path finds in the contents of a document is found in the tree as
well, converted in the context of the nodes that the path passes.
-/

namespace LocatedYaml

/-! ### Related lists -/

section Related

variable {α β : Type} {R : α → β → Prop} {xs : List α} {ys : List β}

private theorem rel_find? {p : α → Bool} {q : β → Bool} (h : List.Forall₂ R xs ys)
    (hpq : ∀ x ∈ xs, ∀ y, R x y → p x = q y) : Option.Rel R (xs.find? p) (ys.find? q) := by
  induction h with
  | nil => exact .none
  | @cons x y xs ys hxy _ ih =>
    have hhead := hpq x List.mem_cons_self y hxy
    rw [List.find?_cons, List.find?_cons, ← hhead]
    cases p x with
    | true => exact .some hxy
    | false => exact ih fun x' hx' => hpq x' (List.mem_cons_of_mem _ hx')

private theorem rel_getElem? (h : List.Forall₂ R xs ys) (index : Nat) : Option.Rel R xs[index]? ys[index]? := by
  induction h generalizing index with
  | nil => exact .none
  | cons hxy _ ih =>
    cases index with
    | zero => exact .some hxy
    | succ index => exact ih index

private theorem rel_map {γ δ : Type} {S : γ → δ → Prop} {f : α → γ} {g : β → δ} {x : Option α} {y : Option β}
    (h : Option.Rel R x y) (hfg : ∀ a b, R a b → S (f a) (g b)) : Option.Rel S (x.map f) (y.map g) := by
  cases h with
  | none => exact .none
  | some hab => exact .some (hfg _ _ hab)

end Related

/-! ### Paths in a node -/

namespace Node

/-- The pairs of a mapping; other nodes have none. -/
def pairs : Node → List (Pair Node)
  | .mapping pairs _ _ _ => pairs
  | _ => []

/-- No alias is the key of a mapping, anywhere in the node. -/
def NoAliasKeys (node : Node) : Prop := node.Everywhere fun inner => ∀ pair ∈ inner.pairs, pair.key.isAlias = false

/-- The node that one step leads to. -/
def child? (node : Node) : Step → Option Node
  | .key name => node.get? name
  | .index index => node.item? index

/-- The nodes that the steps of a path are taken from, outermost first.  When the path leads to a node, that node is
not among them; when it does not, the last of them is the one where it fails. -/
def passed (node : Node) : List Step → List Node
  | [] => []
  | step :: path => node :: (node.child? step).elim [] (·.passed path)

theorem follow?_cons (node : Node) (step : Step) (path : List Step) :
    node.follow? (step :: path) = (node.child? step).bind (·.follow? path) := by
  cases step <;> rfl

theorem child?_of_isAlias {node : Node} (h : node.isAlias) (step : Step) : node.child? step = none := by
  cases node with
  | aliasOf id range => cases step <;> rfl
  | _ => cases h

theorem mem_children_of_child? {node child : Node} {step : Step} (h : node.child? step = some child) :
    child ∈ node.children := by
  cases step with
  | key name =>
    cases node with
    | mapping pairs flow anchor range =>
      obtain ⟨pair, hpair, rfl⟩ := Option.map_eq_some_iff.1 (show (pairs.find? _).map Pair.value = some child from h)
      exact value_mem_children (List.mem_of_find?_eq_some hpair)
    | _ => cases h
  | index index =>
    cases node with
    | sequence items flow anchor range => exact List.mem_of_getElem? (show items[index]? = some child from h)
    | _ => cases h

theorem within_of_follow? {node target : Node} {path : List Step} (h : node.follow? path = some target) :
    target.Within node := by
  induction path generalizing node with
  | nil =>
    obtain rfl := Option.some.inj h
    exact .refl _
  | cons step path ih =>
    rw [follow?_cons] at h
    obtain ⟨child, hchild, h⟩ := Option.bind_eq_some_iff.1 h
    exact .inside (mem_children_of_child? hchild) (ih h)

end Node

/-- The anchors that are being expanded inside all of the nodes, which stand inside each other. -/
def Expanding.enterAll (expanding : Expanding) (nodes : List Node) : Expanding := nodes.foldl Expanding.enter expanding

/-! ### Paths in a tree -/

namespace Tree

variable {table : PositionTable} {anchors : AnchorTable} {expanding outside : Expanding} {node target : Node}
  {tree : Tree} {path : List Step}

/-- The tree that one step leads to. -/
def child? (tree : Tree) : Step → Option Tree
  | .key name => (tree.get? name).map Member.value
  | .index index => (tree.element? index).map Element.value

/-- The value that a path leads to. -/
def value? (tree : Tree) (path : List Step) : Option Tree := (tree.follow? path).map Prod.fst

theorem value?_nil (tree : Tree) : tree.value? [] = some tree := rfl

theorem value?_cons (tree : Tree) (step : Step) (path : List Step) :
    tree.value? (step :: path) = (tree.child? step).bind (·.value? path) := by
  cases step with
  | key name =>
    simp only [child?, Option.bind_map]
    cases path with
    | nil => cases h : tree.get? name <;> simp [value?, follow?, h]
    | cons next path => cases h : tree.get? name <;> simp [value?, follow?, h]
  | index index => cases h : tree.element? index <;> simp [value?, follow?, child?, h]

/-! ### A step before and after conversion -/

/-- A member has the text of its key as its name: a key that is not an alias is a scalar when the pair is converted. -/
theorem text?_key_of_madeOfPair {pair : Pair Node} {member : Member Tree} (hkey : pair.key.isAlias = false)
    (h : MadeOfPair table anchors expanding pair member) : pair.key.text? = some member.name.value := by
  obtain ⟨key, value⟩ := pair
  have hname := h.name
  cases key with
  | scalar scalar =>
    rw [← Except.ok.inj hname]
    rfl
  | mapping pairs flow anchor range | sequence items flow anchor range => cases hname
  | aliasOf id range => cases hkey

/-- A step finds a child in the node and its tree in the tree, or nothing in either. -/
theorem child?_of_ofNode (halias : node.isAlias = false) (hkeys : ∀ pair ∈ node.pairs, pair.key.isAlias = false)
    (h : ofNode table anchors expanding node = .ok tree) (step : Step) :
    Option.Rel (fun child tree => ofNode table anchors (expanding.enter child) child = .ok tree)
      (node.child? step) (tree.child? step) := by
  cases node with
  | scalar scalar =>
    rw [ofNode_scalar] at h
    obtain ⟨-, hmembers, helements⟩ := ofScalar_eq_ok h
    cases step with
    | key name =>
      rw [child?, get?, hmembers]
      exact .none
    | index index =>
      rw [child?, element?, helements]
      exact .none
  | mapping pairs flow anchor range =>
    obtain ⟨members, hpairs, rfl⟩ := ofNode_mapping_eq_ok h
    cases step with
    | key name =>
      have hfind := rel_find? (p := fun pair => pair.key.text? = some name)
        (q := fun member => member.name.value = name) (forall₂_of_ofPairs hpairs) fun pair hpair member hmade => by
          rw [text?_key_of_madeOfPair (hkeys pair hpair) hmade]
          simp
      exact rel_map hfind fun _ _ hmade => hmade.value
    | index index => exact .none
  | sequence items flow anchor range =>
    obtain ⟨elements, hitems, rfl⟩ := ofNode_sequence_eq_ok h
    cases step with
    | key name => exact .none
    | index index =>
      have hget := rel_getElem? (forall₂_of_ofItems hitems) index
      change Option.Rel _ items[index]? (elements[index]?.map Element.value)
      rw [← Option.map_id_apply (x := items[index]?)]
      exact rel_map hget fun _ _ hmade => hmade.value
  | aliasOf id range => cases halias

/-! ### A path before and after conversion -/

/-- What a path finds in a node it finds in its tree, converted in the context of the nodes that it passes. -/
theorem exists_value?_of_follow? (hkeys : node.NoAliasKeys)
    (h : ofNode table anchors (outside.enter node) node = .ok tree) (hfollow : node.follow? path = some target) :
    ∃ value, tree.value? path = some value ∧
      ofNode table anchors ((outside.enterAll (node.passed path)).enter target) target = .ok value := by
  induction path generalizing node tree outside with
  | nil =>
    obtain rfl := Option.some.inj hfollow
    exact ⟨tree, value?_nil tree, h⟩
  | cons step path ih =>
    rw [Node.follow?_cons] at hfollow
    obtain ⟨child, hchild, hfollow⟩ := Option.bind_eq_some_iff.1 hfollow
    have halias : node.isAlias = false := by
      by_contra halias
      rw [Node.child?_of_isAlias (by simpa using halias)] at hchild
      cases hchild
    have hrel := child?_of_ofNode halias hkeys.self h step
    rw [hchild] at hrel
    generalize hvalue : tree.child? step = value? at hrel
    cases hrel with
    | some hmade =>
      obtain ⟨value, hvalue', htarget⟩ := ih (hkeys.child (Node.mem_children_of_child? hchild)) hmade hfollow
      refine ⟨value, ?_, ?_⟩
      · rw [value?_cons, hvalue, Option.bind_some, hvalue']
      · rw [Node.passed, hchild]
        exact htarget

/-- Where a path finds nothing in a node and passes no alias, it finds nothing in the tree. -/
theorem value?_eq_none_of_follow? (hkeys : node.NoAliasKeys)
    (h : ofNode table anchors (outside.enter node) node = .ok tree) (hfollow : node.follow? path = none)
    (halias : ∀ n ∈ node.passed path, n.isAlias = false) : tree.value? path = none := by
  induction path generalizing node tree outside with
  | nil => cases hfollow
  | cons step path ih =>
    rw [Node.follow?_cons] at hfollow
    rw [Node.passed] at halias
    have hrel := child?_of_ofNode (halias node List.mem_cons_self) hkeys.self h step
    rw [value?_cons]
    generalize hchild : node.child? step = child? at hrel
    generalize tree.child? step = value? at hrel
    cases hrel with
    | none => rfl
    | some hmade =>
      rw [hchild] at hfollow halias
      exact ih (hkeys.child (Node.mem_children_of_child? hchild)) hmade hfollow fun n hn =>
        halias n (List.mem_cons_of_mem _ hn)

end Tree

/-- In a document whose mappings have no aliases as keys, a path that leads to a node leads in the converted tree to the
tree of that node, located where the node stands and made with the anchors of all nodes on the way being expanded.  A
path that leads to no node, and meets no alias on the way, leads nowhere in the tree. -/
theorem lookup_of_conversion {source : Text} {chosen : Version} {readings : List Reading} {doc : Document}
    {converted : Tree.Document} (hload : Document.ofReadings source chosen readings = .ok doc)
    (hconvert : Tree.Document.ofReadings source chosen readings = .ok converted)
    (hkeys : ∀ contents, doc.contents = some contents → contents.NoAliasKeys) :
    ∃ contents, doc.contents = some contents ∧ ∀ path,
      (∀ node, contents.follow? path = some node → ∃ value, converted.body.value? path = some value ∧
        Tree.ofNode (.ofText source) doc.anchors ((Expanding.enterAll [] (contents.passed path)).enter node) node =
          .ok value ∧
        value.loc = (PositionTable.ofText source).location node.range) ∧
      (contents.follow? path = none → (∀ node ∈ contents.passed path, node.isAlias = false) →
        converted.body.value? path = none) := by
  obtain ⟨contents, hcontents, hbody⟩ := Tree.body_of_ofReadings hload hconvert
  obtain ⟨events, -, hevents⟩ := Document.exists_events_of_ofReadings hload
  have hranged := (Document.ranged_of_ofEvents hevents).1 contents hcontents
  refine ⟨contents, hcontents, fun path => ⟨fun node hfollow => ?_, fun hfollow halias => ?_⟩⟩
  · obtain ⟨value, hvalue, hnode⟩ := Tree.exists_value?_of_follow? (hkeys contents hcontents) hbody hfollow
    have hrangedNode : node.Ranged := fun id range hw => hranged id range (hw.trans (Node.within_of_follow? hfollow))
    exact ⟨value, hvalue, hnode, Tree.loc_ofNode hrangedNode hnode⟩
  · exact Tree.value?_eq_none_of_follow? (hkeys contents hcontents) hbody hfollow halias

/-- `&a {1: [*a], 1: x}`: a number as a key, twice, and an alias that is null because the path has passed its node. -/
theorem lookup_of_conversion_of_repeated_key :
    let source : Text := "&a \x7b1: [*a], 1: x\x7d".toList
    let readings : List Reading :=
      [⟨.documentStart, 0⟩, ⟨.mappingStart 1, 3⟩, ⟨.scalar ['1'] .plain 0 none, 4⟩, ⟨.sequenceStart 0, 7⟩,
        ⟨.aliasOf 1, 8⟩, ⟨.sequenceEnd, 10⟩, ⟨.scalar ['1'] .plain 0 none, 13⟩, ⟨.scalar ['x'] .plain 0 none, 16⟩,
        ⟨.mappingEnd, 17⟩, ⟨.documentEnd, 18⟩].map .ok
    ∃ doc converted, Document.ofReadings source .v1_2 readings = .ok doc ∧
      Tree.Document.ofReadings source .v1_2 readings = .ok converted ∧
      converted.body.value? [.key ['1'], .index 0] = some (.null ⟨⟨1, 9, 8⟩, ⟨1, 10, 9⟩⟩) ∧
      converted.body.value? [.key ['1'], .index 1] = none := by
  intro source readings
  let one (range : Range) : Node := .scalar ⟨.int 1, ['1'], .plain, none, none, some range⟩
  let contents : Node :=
    .mapping [⟨one ⟨4, 5⟩, .sequence [.aliasOf 1 (some ⟨8, 10⟩)] true none (some ⟨7, 11⟩)⟩,
      ⟨one ⟨13, 14⟩, .scalar ⟨.string ['x'], ['x'], .plain, none, none, some ⟨16, 17⟩⟩⟩] true (some 1) (some ⟨3, 18⟩)
  obtain ⟨doc, hload, hcontents⟩ : ∃ doc, Document.ofReadings source .v1_2 readings = .ok doc ∧
      doc.contents = some contents := ⟨_, rfl, rfl⟩
  obtain ⟨body, hbody⟩ : ∃ body, Tree.ofContents (.ofText source) doc.anchors contents = .ok body := by
    simp [contents, one, Tree.ofContents, Expanding.enter, Node.anchor, Tree.ofItems, Tree.ofPairs, Tree.nameOf,
      Tree.keyNode, Tree.ofScalar, Tree.ofNode_aliasOf_of_mem, Except.map, bind, Except.bind, pure, Except.pure]
  have hconvert := (Tree.ofReadings_eq_ok hload).2 ⟨contents, body, hcontents, hbody, rfl⟩
  have hkeys : ∀ node, doc.contents = some node → node.NoAliasKeys := by
    rintro node hnode inner hw
    obtain rfl := Option.some.inj (hcontents.symm.trans hnode)
    rw [← Node.mem_nodes] at hw
    revert inner
    decide
  obtain ⟨_, hcontents', hlookup⟩ := lookup_of_conversion hload hconvert hkeys
  obtain rfl := Option.some.inj (hcontents'.symm.trans hcontents)
  obtain ⟨value, hvalue, hnode, -⟩ := (hlookup [.key ['1'], .index 0]).1 (.aliasOf 1 (some ⟨8, 10⟩)) rfl
  rw [Tree.ofNode_aliasOf_of_mem (by decide)] at hnode
  obtain rfl := Except.ok.inj hnode
  exact ⟨doc, _, hload, hconvert, hvalue, (hlookup [.key ['1'], .index 1]).2 rfl (by decide)⟩

end LocatedYaml
