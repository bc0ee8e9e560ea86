import LocatedYaml.Location.Basic
import LocatedYaml.Location.Step
import LocatedYaml.Scalar.Basic

/-!
# Nodes

The graph of a document: scalars, sequences, mappings and aliases. Every definition of an anchor has its own
number, and an alias refers to a node by that number. A node without a range does not stand in the source: it is
a value that the source leaves out.
-/

namespace LocatedYaml

/-- The number of an anchor definition, counted from 1. -/
abbrev AnchorId := Nat

/-- A key and its value. -/
structure Pair (α : Type) where
  key : α
  value : α

/-- A scalar of a document. -/
structure Scalar where
  value : Scalar.Value
  /-- The text, with quotes, escapes and folding already worked off. -/
  source : Text
  style : Scalar.Style
  /-- The explicit tag in its full form. -/
  tag : Option Text
  anchor : Option AnchorId
  range : Option Range
  deriving DecidableEq

/-- A node of a document. The pairs of a mapping are in source order, with repeated keys. -/
inductive Node where
  | scalar (scalar : Scalar)
  | mapping (pairs : List (Pair Node)) (flow : Bool) (anchor : Option AnchorId) (range : Option Range)
  | sequence (items : List Node) (flow : Bool) (anchor : Option AnchorId) (range : Option Range)
  | aliasOf (anchor : AnchorId) (range : Option Range)

namespace Node

/-- The value that the source leaves out. -/
def absent : Node := .scalar ⟨.null, [], .plain, none, none, none⟩

def range : Node → Option Range
  | .scalar s => s.range
  | .mapping _ _ _ range => range
  | .sequence _ _ _ range => range
  | .aliasOf _ range => range

/-- The anchor defined on the node; an alias defines none. -/
def anchor : Node → Option AnchorId
  | .scalar s => s.anchor
  | .mapping _ _ anchor _ => anchor
  | .sequence _ _ anchor _ => anchor
  | .aliasOf _ _ => none

/-- The node at another range; what is inside stays where it is. -/
def withRange (range : Option Range) : Node → Node
  | .scalar s => .scalar { s with range }
  | .mapping pairs flow anchor _ => .mapping pairs flow anchor range
  | .sequence items flow anchor _ => .sequence items flow anchor range
  | .aliasOf anchor _ => .aliasOf anchor range

@[simp] theorem range_withRange (range : Option Range) (node : Node) : (node.withRange range).range = range := by
  cases node <;> rfl

@[simp] theorem anchor_withRange (range : Option Range) (node : Node) :
    (node.withRange range).anchor = node.anchor := by
  cases node <;> rfl

def isScalar : Node → Bool
  | .scalar _ => true
  | _ => false

def isMapping : Node → Bool
  | .mapping .. => true
  | _ => false

def isSequence : Node → Bool
  | .sequence .. => true
  | _ => false

def isAlias : Node → Bool
  | .aliasOf .. => true
  | _ => false

@[simp] theorem isAlias_withRange (range : Option Range) (node : Node) :
    (node.withRange range).isAlias = node.isAlias := by
  cases node <;> rfl

/-- The text of a scalar. -/
def text? : Node → Option Text
  | .scalar s => some s.source
  | _ => none

/-- The value of the first pair whose key is a scalar with this text. -/
def get? (key : Text) : Node → Option Node
  | .mapping pairs _ _ _ => (pairs.find? fun pair => pair.key.text? = some key).map Pair.value
  | _ => none

/-- The item of a sequence with this index. -/
def item? (index : Nat) : Node → Option Node
  | .sequence items _ _ _ => items[index]?
  | _ => none

/-- The node that a path leads to; aliases are not followed. -/
def follow? (node : Node) : List Step → Option Node
  | [] => some node
  | .key name :: path => (node.get? name).bind (·.follow? path)
  | .index index :: path => (node.item? index).bind (·.follow? path)

end Node

end LocatedYaml
