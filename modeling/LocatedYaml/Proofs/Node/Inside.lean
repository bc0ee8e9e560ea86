import LocatedYaml.Node.Basic
import LocatedYaml.Tree.Basic

/-!
# The inside of a node

The children of a node, the nodes inside it at any depth, and how deep nodes and trees are nested.

* `Node.children_induction`: what passes from the children of a node to the node holds of every node.
* `Node.within_iff`: what is inside a node is the node itself or inside one of its children.
-/

namespace LocatedYaml

namespace Node

/-- The nodes directly inside a node, in source order. -/
def children : Node → List Node
  | .scalar _ => []
  | .mapping pairs _ _ _ => pairs.flatMap fun pair => [pair.key, pair.value]
  | .sequence items _ _ _ => items
  | .aliasOf _ _ => []

@[simp] theorem children_withRange (range : Option Range) (node : Node) :
    (node.withRange range).children = node.children := by
  cases node <;> rfl

@[simp] theorem withRange_range (node : Node) : node.withRange node.range = node := by
  cases node <;> rfl

theorem mem_children_mapping {pairs : List (Pair Node)} {flow : Bool} {anchor : Option AnchorId}
    {range : Option Range} {child : Node} :
    child ∈ (mapping pairs flow anchor range).children ↔ ∃ pair ∈ pairs, child = pair.key ∨ child = pair.value := by
  simp [children]

theorem key_mem_children {pairs : List (Pair Node)} {flow : Bool} {anchor : Option AnchorId} {range : Option Range}
    {pair : Pair Node} (h : pair ∈ pairs) : pair.key ∈ (mapping pairs flow anchor range).children :=
  mem_children_mapping.2 ⟨pair, h, Or.inl rfl⟩

theorem value_mem_children {pairs : List (Pair Node)} {flow : Bool} {anchor : Option AnchorId} {range : Option Range}
    {pair : Pair Node} (h : pair ∈ pairs) : pair.value ∈ (mapping pairs flow anchor range).children :=
  mem_children_mapping.2 ⟨pair, h, Or.inr rfl⟩

private theorem sizeOf_lt_of_mem_pairs {pairs : List (Pair Node)} {pair : Pair Node} (h : pair ∈ pairs) :
    sizeOf pair.key < sizeOf pairs ∧ sizeOf pair.value < sizeOf pairs := by
  obtain ⟨key, value⟩ := pair
  have := List.sizeOf_lt_of_mem h
  rw [Pair.mk.sizeOf_spec] at this
  show sizeOf key < sizeOf pairs ∧ sizeOf value < sizeOf pairs
  omega

theorem sizeOf_lt_of_mem_children {node child : Node} (h : child ∈ node.children) : sizeOf child < sizeOf node := by
  cases node with
  | scalar s => simp [children] at h
  | aliasOf id range => simp [children] at h
  | sequence items flow anchor range =>
    have := List.sizeOf_lt_of_mem (show child ∈ items from h)
    simp only [sequence.sizeOf_spec]
    omega
  | mapping pairs flow anchor range =>
    obtain ⟨pair, hp, hc⟩ := mem_children_mapping.1 h
    have := sizeOf_lt_of_mem_pairs hp
    simp only [mapping.sizeOf_spec]
    rcases hc with rfl | rfl <;> omega

/-- What passes from the children of a node to the node holds of every node. -/
@[elab_as_elim]
theorem children_induction {motive : Node → Prop} (node : Node)
    (step : ∀ node : Node, (∀ child ∈ node.children, motive child) → motive node) : motive node :=
  step node fun child _ => children_induction child step
termination_by sizeOf node
decreasing_by exact sizeOf_lt_of_mem_children ‹_›

/-! ### Nodes at any depth -/

/-- `inner.Within outer`: `inner` is `outer` or stands inside it, at any depth. -/
inductive Within : Node → Node → Prop where
  | refl (node : Node) : Within node node
  | inside {inner child outer : Node} (hchild : child ∈ outer.children) (h : Within inner child) : Within inner outer

theorem within_iff {inner outer : Node} :
    inner.Within outer ↔ inner = outer ∨ ∃ child ∈ outer.children, inner.Within child := by
  constructor
  · intro h
    cases h with
    | refl => exact Or.inl rfl
    | inside hchild h => exact Or.inr ⟨_, hchild, h⟩
  · rintro (rfl | ⟨child, hchild, h⟩)
    · exact .refl _
    · exact .inside hchild h

theorem Within.trans {a b c : Node} (hab : a.Within b) (hbc : b.Within c) : a.Within c := by
  induction hbc with
  | refl => exact hab
  | inside hchild _ ih => exact .inside hchild ih

/-- What holds of the node and of all nodes inside it. -/
def Everywhere (P : Node → Prop) (node : Node) : Prop := ∀ inner, inner.Within node → P inner

theorem Everywhere.self {P : Node → Prop} {node : Node} (h : node.Everywhere P) : P node := h node (.refl node)

theorem Everywhere.child {P : Node → Prop} {node child : Node} (h : node.Everywhere P)
    (hchild : child ∈ node.children) : child.Everywhere P :=
  fun inner hw => h inner (.inside hchild hw)

theorem Everywhere.of_children {P : Node → Prop} {node : Node} (hnode : P node)
    (h : ∀ child ∈ node.children, child.Everywhere P) : node.Everywhere P := by
  intro inner hw
  rcases within_iff.1 hw with rfl | ⟨child, hchild, hw⟩
  · exact hnode
  · exact h child hchild inner hw

mutual

/-- The node and all nodes inside it, each as often as it stands there. -/
def nodes : Node → List Node
  | .scalar s => [.scalar s]
  | .mapping pairs flow anchor range => .mapping pairs flow anchor range :: nodesOfPairs pairs
  | .sequence items flow anchor range => .sequence items flow anchor range :: nodesOfItems items
  | .aliasOf id range => [.aliasOf id range]

def nodesOfPairs : List (Pair Node) → List Node
  | [] => []
  | ⟨key, value⟩ :: pairs => key.nodes ++ (value.nodes ++ nodesOfPairs pairs)

def nodesOfItems : List Node → List Node
  | [] => []
  | item :: items => item.nodes ++ nodesOfItems items

end

private theorem nodesOfPairs_eq (pairs : List (Pair Node)) :
    nodesOfPairs pairs = (pairs.flatMap fun pair => [pair.key, pair.value]).flatMap nodes := by
  induction pairs with
  | nil => simp [nodesOfPairs]
  | cons pair pairs ih => simp [nodesOfPairs, ih]

private theorem nodesOfItems_eq (items : List Node) : nodesOfItems items = items.flatMap nodes := by
  induction items with
  | nil => simp [nodesOfItems]
  | cons item items ih => simp [nodesOfItems, ih]

theorem nodes_eq (node : Node) : node.nodes = node :: node.children.flatMap nodes := by
  cases node with
  | scalar s => simp [nodes, children]
  | aliasOf id range => simp [nodes, children]
  | mapping pairs flow anchor range => rw [nodes, nodesOfPairs_eq, children]
  | sequence items flow anchor range => rw [nodes, nodesOfItems_eq, children]

theorem mem_nodes {inner outer : Node} : inner ∈ outer.nodes ↔ inner.Within outer := by
  induction outer using children_induction with
  | step outer ih =>
    rw [nodes_eq, within_iff, List.mem_cons, List.mem_flatMap]
    exact or_congr_right ⟨fun ⟨child, hchild, h⟩ => ⟨child, hchild, (ih child hchild).1 h⟩,
      fun ⟨child, hchild, h⟩ => ⟨child, hchild, (ih child hchild).2 h⟩⟩

/-- An alias of this anchor stands somewhere in the node. -/
def Mentions (node : Node) (id : AnchorId) : Prop := ∃ range, (aliasOf id range).Within node

theorem mentions_iff {node : Node} {id : AnchorId} :
    node.Mentions id ↔ (∃ range, node = .aliasOf id range) ∨ ∃ child ∈ node.children, child.Mentions id := by
  constructor
  · rintro ⟨range, h⟩
    rcases within_iff.1 h with h | ⟨child, hchild, h⟩
    · exact Or.inl ⟨range, h.symm⟩
    · exact Or.inr ⟨child, hchild, range, h⟩
  · rintro (⟨range, rfl⟩ | ⟨child, hchild, range, h⟩)
    · exact ⟨range, .refl _⟩
    · exact ⟨range, .inside hchild h⟩

theorem not_mentions_scalar (s : Scalar) (id : AnchorId) : ¬ (scalar s).Mentions id := by
  rw [mentions_iff]
  rintro (⟨range, h⟩ | ⟨child, hchild, -⟩)
  · cases h
  · cases hchild

/-- Where a node stands makes no difference to the anchors it mentions. -/
theorem mentions_withRange {node : Node} {id : AnchorId} {range : Option Range} :
    (node.withRange range).Mentions id ↔ node.Mentions id := by
  rw [mentions_iff, mentions_iff, children_withRange]
  cases node <;> simp [withRange]

/-! ### Depth -/

mutual

/-- How deep a node is nested: 1 for scalars and aliases, one more than its deepest child for a collection. -/
def depth : Node → Nat
  | .scalar _ => 1
  | .mapping pairs _ _ _ => depthOfPairs pairs + 1
  | .sequence items _ _ _ => depthOfItems items + 1
  | .aliasOf _ _ => 1

def depthOfPairs : List (Pair Node) → Nat
  | [] => 0
  | ⟨key, value⟩ :: pairs => max (max key.depth value.depth) (depthOfPairs pairs)

def depthOfItems : List Node → Nat
  | [] => 0
  | item :: items => max item.depth (depthOfItems items)

end

theorem depth_pos (node : Node) : 0 < node.depth := by
  cases node <;> simp [depth]

@[simp] theorem depth_withRange (range : Option Range) (node : Node) : (node.withRange range).depth = node.depth := by
  cases node <;> simp [withRange, depth]

theorem depth_le_depthOfItems {items : List Node} {item : Node} (h : item ∈ items) :
    item.depth ≤ depthOfItems items := by
  induction items with
  | nil => simp at h
  | cons head items ih =>
    rw [depthOfItems]
    rcases List.mem_cons.1 h with rfl | h
    · exact Nat.le_max_left ..
    · exact Nat.le_trans (ih h) (Nat.le_max_right ..)

theorem depth_le_depthOfPairs {pairs : List (Pair Node)} {pair : Pair Node} (h : pair ∈ pairs) :
    pair.key.depth ≤ depthOfPairs pairs ∧ pair.value.depth ≤ depthOfPairs pairs := by
  induction pairs with
  | nil => simp at h
  | cons head pairs ih =>
    rw [depthOfPairs]
    rcases List.mem_cons.1 h with rfl | h
    · omega
    · have := ih h
      omega

end Node

namespace Tree

mutual

/-- How deep a tree is nested, members and elements not counted. -/
def depth : Tree → Nat
  | .object members _ => depthOfMembers members + 1
  | .array elements _ => depthOfElements elements + 1
  | .string _ _ | .number _ _ | .boolean _ _ | .null _ => 1

def depthOfMembers : List (Member Tree) → Nat
  | [] => 0
  | ⟨_, value, _⟩ :: members => max value.depth (depthOfMembers members)

def depthOfElements : List (Element Tree) → Nat
  | [] => 0
  | ⟨value, _⟩ :: elements => max value.depth (depthOfElements elements)

end

theorem depthOfMembers_le {members : List (Member Tree)} {n : Nat} (h : ∀ m ∈ members, m.value.depth ≤ n) :
    depthOfMembers members ≤ n := by
  induction members with
  | nil => simp [depthOfMembers]
  | cons m members ih =>
    rw [depthOfMembers, Nat.max_le]
    exact ⟨h m (by simp), ih fun m' hm' => h m' (by simp [hm'])⟩

theorem depthOfElements_le {elements : List (Element Tree)} {n : Nat} (h : ∀ e ∈ elements, e.value.depth ≤ n) :
    depthOfElements elements ≤ n := by
  induction elements with
  | nil => simp [depthOfElements]
  | cons e elements ih =>
    rw [depthOfElements, Nat.max_le]
    exact ⟨h e (by simp), ih fun e' he' => h e' (by simp [he'])⟩

end Tree

end LocatedYaml
