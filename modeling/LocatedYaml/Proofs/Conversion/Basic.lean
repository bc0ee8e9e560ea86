import LocatedYaml.Tree.Convert

/-!
# The conversion, node by node

What `Tree.ofNode` gives for each kind of node, with the three fates of an alias as equations of their own.  Where a
node stands only decides the location of the root of its tree (`Tree.ofNode_withRange`).
-/

namespace LocatedYaml

theorem Expanding.mem_enter {expanding : Expanding} {node : Node} {id : AnchorId} :
    id ∈ expanding.enter node ↔ node.anchor = some id ∨ id ∈ expanding := by
  unfold Expanding.enter
  cases node.anchor <;> simp [eq_comm]

/-- Inside a node no more anchors are left to follow, so what is smaller there comes before what is outside. -/
theorem AnchorTable.unexpanded_enter_lex (table : AnchorTable) (expanding : Expanding) (node : Node) {m n : Nat}
    (h : m < n) :
    Prod.Lex (· < ·) (· < ·) (table.unexpanded (expanding.enter node), m) (table.unexpanded expanding, n) := by
  rcases Nat.lt_or_eq_of_le (table.unexpanded_enter_le expanding node) with hlt | heq
  · exact Prod.Lex.left _ _ hlt
  · rw [heq]
    exact Prod.Lex.right _ h

namespace Tree

variable {table : PositionTable} {anchors : AnchorTable} {expanding : Expanding} {id : AnchorId}
  {range : Option Range}

@[simp] theorem ofNode_scalar (s : Scalar) : ofNode table anchors expanding (.scalar s) = ofScalar table s := by
  rw [ofNode]

@[simp] theorem ofNode_mapping (pairs : List (Pair Node)) (flow : Bool) (anchor : Option AnchorId) :
    ofNode table anchors expanding (.mapping pairs flow anchor range) =
      (ofPairs table anchors expanding pairs).map fun members => .object members (table.location range) := by
  rw [ofNode]

@[simp] theorem ofNode_sequence (items : List Node) (flow : Bool) (anchor : Option AnchorId) :
    ofNode table anchors expanding (.sequence items flow anchor range) =
      (ofItems table anchors expanding items).map fun elements => .array elements (table.location range) := by
  rw [ofNode]

/-- An alias inside the node it refers to. -/
theorem ofNode_aliasOf_of_mem (h : id ∈ expanding) :
    ofNode table anchors expanding (.aliasOf id range) = .ok (.null (table.location range)) := by
  rw [ofNode, dif_pos h]

/-- An alias that refers to nothing. -/
theorem ofNode_aliasOf_of_none (h : anchors.find? id = none) :
    ofNode table anchors expanding (.aliasOf id range) = .ok (.null (table.location range)) := by
  rw [ofNode]
  split
  · rfl
  · split
    · rfl
    · simp_all

/-- An alias that is followed. -/
theorem ofNode_aliasOf_of_some {target : Node} (hid : id ∉ expanding) (h : anchors.find? id = some target) :
    ofNode table anchors expanding (.aliasOf id range) =
      ofNode table anchors (id :: expanding) (target.withRange (range.or target.range)) := by
  rw [ofNode, dif_neg hid]
  split
  · simp_all
  · rename_i target' h'
    rw [h] at h'
    rw [Option.some.inj h']

@[simp] theorem ofPairs_nil : ofPairs table anchors expanding [] = .ok [] := by
  rw [ofPairs]

@[simp] theorem ofItems_nil : ofItems table anchors expanding [] = .ok [] := by
  rw [ofItems]

/-! ### The same node elsewhere -/

/-- The tree at another location; what is inside stays where it is. -/
def withLoc (loc : Location) : Tree → Tree
  | .object members _ => .object members loc
  | .array elements _ => .array elements loc
  | .string value _ => .string value loc
  | .number value _ => .number value loc
  | .boolean value _ => .boolean value loc
  | .null _ => .null loc

/-- The result of a conversion of a node at another location.  A failure moves with the node only when it is a failure
of the node itself: that of a scalar. -/
def relocated (loc : Location) (node : Node) (result : Except ConvertError Tree) : Except ConvertError Tree :=
  match result with
  | .ok tree => .ok (tree.withLoc loc)
  | .error (.unsupportedScalar kind loc') => .error (.unsupportedScalar kind (if node.isScalar then loc else loc'))
  | .error error => .error error

/-- Only the location of the root depends on where a node stands. -/
theorem ofNode_withRange {node : Node} (h : node.isAlias = false) :
    ofNode table anchors expanding (node.withRange range) =
      relocated (table.location range) node (ofNode table anchors expanding node) := by
  cases node with
  | aliasOf id range' => simp [Node.isAlias] at h
  | scalar s =>
    rw [Node.withRange, ofNode_scalar, ofNode_scalar, ofScalar, ofScalar]
    cases s.value <;> rfl
  | mapping pairs flow anchor range' =>
    rw [Node.withRange, ofNode_mapping, ofNode_mapping]
    cases ofPairs table anchors expanding pairs with
    | ok members => rfl
    | error error => cases error <;> rfl
  | sequence items flow anchor range' =>
    rw [Node.withRange, ofNode_sequence, ofNode_sequence]
    cases ofItems table anchors expanding items with
    | ok elements => rfl
    | error error => cases error <;> rfl

/-! ### Whole documents -/

/-- A conversion converts the contents of the document that is loaded and adds the location of the whole text. -/
theorem ofReadings_eq_ok {source : Text} {chosen : Version} {readings : List Reading}
    {doc : LocatedYaml.Document} {converted : Document}
    (hload : LocatedYaml.Document.ofReadings source chosen readings = .ok doc) :
    Document.ofReadings source chosen readings = .ok converted ↔ ∃ contents body, doc.contents = some contents ∧
      ofContents (PositionTable.ofText source) doc.anchors contents = .ok body ∧
      converted = ⟨body, (PositionTable.ofText source).documentLocation⟩ := by
  rw [Document.ofReadings, hload]
  change Document.ofLoaded source doc = .ok converted ↔ _
  unfold Document.ofLoaded
  cases hcontents : doc.contents with
  | none => simp
  | some contents =>
    cases hbody : ofContents (PositionTable.ofText source) doc.anchors contents with
    | error e => simp [hbody, bind, Except.bind]
    | ok body => simp [hbody, bind, Except.bind, pure, Except.pure, eq_comm]

/-- The conversion of what is read is the conversion of the contents of the document that is loaded. -/
theorem body_of_ofReadings {source : Text} {chosen : Version} {readings : List Reading}
    {doc : LocatedYaml.Document} {converted : Document}
    (hload : LocatedYaml.Document.ofReadings source chosen readings = .ok doc)
    (h : Document.ofReadings source chosen readings = .ok converted) :
    ∃ contents, doc.contents = some contents ∧
      ofContents (PositionTable.ofText source) doc.anchors contents = .ok converted.body := by
  obtain ⟨contents, body, hcontents, hbody, rfl⟩ := (ofReadings_eq_ok hload).1 h
  exact ⟨contents, hcontents, hbody⟩

end Tree

end LocatedYaml
