import LocatedYaml.Node.AnchorTable

/-!
# Nodes without their places

What is left of a node when no node inside it has a range or a flow flag any more, and the same for anchor tables.
Everything else stays: the shape, the scalars with their texts and tags, and the anchors.  So a look-up of an anchor
does not depend on places (`AnchorTable.find?_erased`), nor does the record of a node (`AnchorTable.erased_record`).
-/

namespace LocatedYaml

namespace Node

mutual

/-- The node without ranges and flow flags, its own and those inside it. -/
def erased : Node → Node
  | .scalar s => .scalar { s with range := none }
  | .mapping pairs _ anchor _ => .mapping (erasedPairs pairs) false anchor none
  | .sequence items _ anchor _ => .sequence (erasedItems items) false anchor none
  | .aliasOf id _ => .aliasOf id none

def erasedPairs : List (Pair Node) → List (Pair Node)
  | [] => []
  | ⟨key, value⟩ :: pairs => ⟨key.erased, value.erased⟩ :: erasedPairs pairs

def erasedItems : List Node → List Node
  | [] => []
  | item :: items => item.erased :: erasedItems items

end

end Node

def Pair.erased (pair : Pair Node) : Pair Node := ⟨pair.key.erased, pair.value.erased⟩

namespace Node

theorem erasedPairs_eq_map (pairs : List (Pair Node)) : erasedPairs pairs = pairs.map Pair.erased := by
  induction pairs with
  | nil => rfl
  | cons pair pairs ih => rw [erasedPairs, ih]; rfl

theorem erasedItems_eq_map (items : List Node) : erasedItems items = items.map erased := by
  induction items with
  | nil => rfl
  | cons item items ih => rw [erasedItems, ih]; rfl

mutual

@[simp] theorem erased_erased : ∀ node : Node, node.erased.erased = node.erased
  | .scalar _ => rfl
  | .mapping pairs _ _ _ => by rw [erased, erased, erasedPairs_erasedPairs pairs]
  | .sequence items _ _ _ => by rw [erased, erased, erasedItems_erasedItems items]
  | .aliasOf _ _ => rfl

theorem erasedPairs_erasedPairs : ∀ pairs : List (Pair Node), erasedPairs (erasedPairs pairs) = erasedPairs pairs
  | [] => rfl
  | ⟨key, value⟩ :: pairs => by
    rw [erasedPairs, erasedPairs, erased_erased key, erased_erased value, erasedPairs_erasedPairs pairs]

theorem erasedItems_erasedItems : ∀ items : List Node, erasedItems (erasedItems items) = erasedItems items
  | [] => rfl
  | item :: items => by rw [erasedItems, erasedItems, erased_erased item, erasedItems_erasedItems items]

end

@[simp] theorem range_erased (node : Node) : node.erased.range = none := by
  cases node <;> rfl

@[simp] theorem anchor_erased (node : Node) : node.erased.anchor = node.anchor := by
  cases node <;> rfl

@[simp] theorem erased_withRange (range : Option Range) (node : Node) :
    (node.withRange range).erased = node.erased := by
  cases node <;> rfl

@[simp] theorem withRange_none_erased (node : Node) : node.erased.withRange none = node.erased := by
  cases node <;> rfl

@[simp] theorem erased_absent : absent.erased = absent := rfl

end Node

@[simp] theorem Pair.erased_erased (pair : Pair Node) : pair.erased.erased = pair.erased := by
  simp [Pair.erased]

namespace AnchorTable

def erased (table : AnchorTable) : AnchorTable where
  entries := table.entries.map fun (id, node) => (id, node.erased)
  anchored := by
    intro entry hentry
    obtain ⟨entry, hmem, rfl⟩ := List.mem_map.1 hentry
    exact (Node.anchor_erased _).trans (table.anchored _ hmem)

theorem eq_of_entries {table table' : AnchorTable} (h : table.entries = table'.entries) : table = table' := by
  cases table
  cases table'
  cases h
  rfl

@[simp] theorem erased_erased (table : AnchorTable) : table.erased.erased = table.erased :=
  eq_of_entries (by simp [erased])

theorem find?_erased (table : AnchorTable) (id : AnchorId) :
    table.erased.find? id = (table.find? id).map Node.erased := by
  obtain ⟨entries, anchored⟩ := table
  simp only [find?, erased]
  clear anchored
  induction entries with
  | nil => rfl
  | cons entry entries ih =>
    rw [List.map_cons, List.lookup_cons, List.lookup_cons, ih]
    split <;> rfl

theorem entries_record (table : AnchorTable) (node : Node) : (table.record node).entries =
    match node.anchor with
    | none => table.entries
    | some id => (id, node) :: table.entries.filter (·.1 ≠ id) := by
  unfold record
  split <;> simp [*]

theorem erased_record (table : AnchorTable) (node : Node) :
    (table.record node).erased = table.erased.record node.erased := by
  apply eq_of_entries
  rw [entries_record, Node.anchor_erased]
  simp only [erased, entries_record]
  cases node.anchor with
  | none => rfl
  | some id => simp [List.filter_map, Function.comp_def]

end AnchorTable

end LocatedYaml
