import LocatedYaml.Lookup
import LocatedYaml.Node.Basic

/-!
# Anchor tables

The nodes that aliases refer to, by the numbers of their anchors. Every node of the table carries the number under
which it is found, so none of them is an alias.
-/

namespace LocatedYaml

structure AnchorTable where
  entries : List (AnchorId × Node) := []
  anchored : ∀ entry ∈ entries, entry.2.anchor = some entry.1 := by simp

namespace AnchorTable

def empty : AnchorTable := {}

/-- The node with this anchor. -/
def find? (table : AnchorTable) (id : AnchorId) : Option Node := table.entries.lookup id

theorem mem_of_find? {table : AnchorTable} {id : AnchorId} {node : Node} (h : table.find? id = some node) :
    (id, node) ∈ table.entries := by
  obtain ⟨l₁, l₂, hl, -⟩ := List.lookup_eq_some_iff.1 h
  rw [hl]
  simp

theorem anchor_of_find? {table : AnchorTable} {id : AnchorId} {node : Node} (h : table.find? id = some node) :
    node.anchor = some id :=
  table.anchored _ (mem_of_find? h)

theorem isAlias_of_find? {table : AnchorTable} {id : AnchorId} {node : Node} (h : table.find? id = some node) :
    node.isAlias = false := by
  have hanchor := anchor_of_find? h
  cases node with
  | aliasOf => cases hanchor
  | _ => rfl

/-- The table with one more node under its own anchor, in place of an earlier node with that anchor. A node
without an anchor is not entered. -/
def record (table : AnchorTable) (node : Node) : AnchorTable :=
  match h : node.anchor with
  | none => table
  | some id =>
    { entries := (id, node) :: table.entries.filter (·.1 ≠ id)
      anchored := by
        intro entry hentry
        rcases List.mem_cons.1 hentry with rfl | hmem
        · exact h
        · exact table.anchored _ (List.mem_filter.1 hmem).1 }

theorem find?_record (table : AnchorTable) (node : Node) (id : AnchorId) :
    (table.record node).find? id = if node.anchor = some id then some node else table.find? id := by
  unfold record
  split
  · rename_i h
    simp [h]
  · rename_i id' h
    by_cases hid : id' = id
    · subst hid
      simp [find?, h]
    · rw [if_neg (by simpa [h] using hid), find?, List.lookup_cons, beq_eq_false_iff_ne.2 (Ne.symm hid)]
      exact lookup_filter_ne (Ne.symm hid) table.entries

/-- In a table of recorded nodes, the last node with an anchor is the one that is found. -/
theorem find?_foldl_record (nodes : List Node) (table : AnchorTable) (id : AnchorId) :
    (nodes.foldl record table).find? id =
      (nodes.reverse.find? (·.anchor = some id)).or (table.find? id) := by
  induction nodes generalizing table with
  | nil => rfl
  | cons node nodes ih =>
    rw [List.foldl_cons, ih, find?_record, List.reverse_cons, List.find?_append, Option.or_assoc]
    by_cases h : node.anchor = some id <;> simp [h]

/-- The numbers that the table knows, in ascending order. -/
def ids (table : AnchorTable) : List AnchorId := (table.entries.map Prod.fst).mergeSort

end AnchorTable

end LocatedYaml
