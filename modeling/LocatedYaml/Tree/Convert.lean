import LocatedYaml.Document.Builder
import LocatedYaml.Location.Table
import LocatedYaml.Tree.Basic
import LocatedYaml.Tree.ConvertError

/-!
# From documents to trees

An alias becomes a copy of the node it refers to, located where the alias stands; what is inside the copy keeps
the locations of the definition. An alias inside the node it refers to, and an alias that refers to nothing, become
null.

The conversion ends: inside an alias its anchor counts as being expanded, so every alias that is followed leaves
fewer anchors of the table to follow (`unexpanded_lt`).
-/

namespace LocatedYaml

/-- The anchors of the nodes that are being converted, innermost first. -/
abbrev Expanding := List AnchorId

/-- The anchors that are being expanded inside a node. -/
def Expanding.enter (expanding : Expanding) (node : Node) : Expanding :=
  match node.anchor with
  | some id => id :: expanding
  | none => expanding

namespace AnchorTable

/-- How many entries of the table are not being expanded. -/
def unexpanded (table : AnchorTable) (expanding : Expanding) : Nat :=
  table.entries.countP (·.1 ∉ expanding)

theorem unexpanded_enter_le (table : AnchorTable) (expanding : Expanding) (node : Node) :
    table.unexpanded (expanding.enter node) ≤ table.unexpanded expanding := by
  refine List.countP_mono_left fun entry _ h => ?_
  unfold Expanding.enter at h
  split at h <;> simp_all

theorem unexpanded_lt {table : AnchorTable} {expanding : Expanding} {id : AnchorId} {node : Node}
    (h : table.find? id = some node) (hid : id ∉ expanding) :
    table.unexpanded (id :: expanding) < table.unexpanded expanding := by
  obtain ⟨l₁, l₂, hl⟩ := List.append_of_mem (mem_of_find? h)
  have hle : ∀ l : List (AnchorId × Node),
      l.countP (·.1 ∉ id :: expanding) ≤ l.countP (·.1 ∉ expanding) := fun l =>
    List.countP_mono_left fun entry _ h => by simp_all
  have h₁ := hle l₁
  have h₂ := hle l₂
  simp only [unexpanded, hl, List.countP_append, List.countP_cons]
  simp [hid] at h₁ h₂ ⊢
  omega

/-- The node that an alias stands for, at the place of the alias. -/
def relocated? (table : AnchorTable) (id : AnchorId) (range : Option Range) : Option Node :=
  (table.find? id).map fun target => target.withRange (range.or target.range)

end AnchorTable

namespace Tree

/-- The tree of a scalar. -/
def ofScalar (table : PositionTable) (scalar : Scalar) : Except ConvertError Tree :=
  let loc := table.location scalar.range
  match scalar.value with
  | .null => .ok (.null loc)
  | .bool value => .ok (.boolean value loc)
  | .int value => .ok (.number (.ofInt value) loc)
  | .float value => .ok (.number value loc)
  | .string value => .ok (.string value loc)
  | .binary _ => .error (.unsupportedScalar .binary loc)
  | .timestamp _ => .error (.unsupportedScalar .timestamp loc)

/-- The name that a key gives: the text of a scalar, whatever its value. An alias here is one that is not
followed. -/
def nameOf (table : PositionTable) : Node → Except ConvertError Name
  | .scalar scalar => .ok ⟨scalar.source, table.location scalar.range⟩
  | .mapping _ _ _ range => .error (.unsupportedKey .mapping (table.location range))
  | .sequence _ _ _ range => .error (.unsupportedKey .sequence (table.location range))
  | .aliasOf _ range => .ok ⟨[], table.location range⟩

/-- The node that a key stands for: an alias is followed unless its node is being expanded. -/
def keyNode (anchors : AnchorTable) (expanding : Expanding) (key : Node) : Node :=
  match key with
  | .aliasOf id range => if id ∈ expanding then key else (anchors.relocated? id range).getD key
  | key => key

/-- The location of a member: it ends where the name ends when the value does not stand in the source. -/
def memberLoc (name : Name) (pair : Pair Node) (value : Tree) : Location :=
  if pair.value.range.isSome then name.loc.through value.loc else name.loc

mutual

/-- The tree of a node; `expanding` are the anchors being expanded, that of the node included. -/
def ofNode (table : PositionTable) (anchors : AnchorTable) (expanding : Expanding) (node : Node) :
    Except ConvertError Tree :=
  match node with
  | .scalar scalar => ofScalar table scalar
  | .mapping pairs _ _ range =>
    (ofPairs table anchors expanding pairs).map fun members => .object members (table.location range)
  | .sequence items _ _ range =>
    (ofItems table anchors expanding items).map fun elements => .array elements (table.location range)
  | .aliasOf id range =>
    if _hid : id ∈ expanding then .ok (.null (table.location range))
    else
      match _h : anchors.find? id with
      | none => .ok (.null (table.location range))
      | some target => ofNode table anchors (id :: expanding) (target.withRange (range.or target.range))
termination_by (anchors.unexpanded expanding, sizeOf node)
decreasing_by
  · exact Prod.Lex.right _ (by rw [Node.mapping.sizeOf_spec]; omega)
  · exact Prod.Lex.right _ (by rw [Node.sequence.sizeOf_spec]; omega)
  · exact Prod.Lex.left _ _ (AnchorTable.unexpanded_lt _h _hid)

/-- The members of an object, in order. -/
def ofPairs (table : PositionTable) (anchors : AnchorTable) (expanding : Expanding) (pairs : List (Pair Node)) :
    Except ConvertError (List (Member Tree)) :=
  match pairs with
  | [] => .ok []
  | ⟨key, node⟩ :: pairs => do
    let name ← nameOf table (keyNode anchors expanding key)
    let value ← ofNode table anchors (expanding.enter node) node
    let members ← ofPairs table anchors expanding pairs
    return ⟨name, value, memberLoc name ⟨key, node⟩ value⟩ :: members
termination_by (anchors.unexpanded expanding, sizeOf pairs)
decreasing_by
  · rcases Nat.lt_or_eq_of_le (anchors.unexpanded_enter_le expanding node) with h | h
    · exact Prod.Lex.left _ _ h
    · rw [h]; exact Prod.Lex.right _ (by rw [List.cons.sizeOf_spec, Pair.mk.sizeOf_spec]; omega)
  · exact Prod.Lex.right _ (by rw [List.cons.sizeOf_spec, Pair.mk.sizeOf_spec]; omega)

/-- The elements of an array, in order. -/
def ofItems (table : PositionTable) (anchors : AnchorTable) (expanding : Expanding) (items : List Node) :
    Except ConvertError (List (Element Tree)) :=
  match items with
  | [] => .ok []
  | node :: items => do
    let value ← ofNode table anchors (expanding.enter node) node
    let elements ← ofItems table anchors expanding items
    return ⟨value, table.location node.range⟩ :: elements
termination_by (anchors.unexpanded expanding, sizeOf items)
decreasing_by
  · rcases Nat.lt_or_eq_of_le (anchors.unexpanded_enter_le expanding node) with h | h
    · exact Prod.Lex.left _ _ h
    · rw [h]; exact Prod.Lex.right _ (by rw [List.cons.sizeOf_spec]; omega)
  · exact Prod.Lex.right _ (by rw [List.cons.sizeOf_spec]; omega)

end

/-- The tree of the contents of a document. -/
def ofContents (table : PositionTable) (anchors : AnchorTable) (contents : Node) : Except ConvertError Tree :=
  ofNode table anchors (Expanding.enter [] contents) contents

/-- The tree of a document loaded from `source`. -/
def Document.ofLoaded (source : Text) (doc : LocatedYaml.Document) : Except ConvertError Document :=
  match doc.contents with
  | none => .error .noContent
  | some contents => do
    let table := PositionTable.ofText source
    let body ← ofContents table doc.anchors contents
    return ⟨body, table.documentLocation⟩

/-- The tree of what was read from `source`. -/
def Document.ofReadings (source : Text) (chosen : Version) (readings : List Reading) :
    Except ConvertError Document := do
  let doc ← (LocatedYaml.Document.ofReadings source chosen readings).mapError .load
  ofLoaded source doc

end Tree

end LocatedYaml
