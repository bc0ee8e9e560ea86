import LocatedYaml.Tree.Basic

/-!
# The inside of a tree

The trees inside a tree at any depth, and the locations that a tree shows for itself, its members and its elements.
-/

namespace LocatedYaml

namespace Tree

/-- The trees directly inside a tree, in order. -/
def children : Tree → List Tree
  | .object members _ => members.map Member.value
  | .array elements _ => elements.map Element.value
  | .string _ _ | .number _ _ | .boolean _ _ | .null _ => []

/-- `inner.Within outer`: `inner` is `outer` or stands inside it, at any depth. -/
inductive Within : Tree → Tree → Prop where
  | refl (tree : Tree) : Within tree tree
  | inside {inner child outer : Tree} (hchild : child ∈ outer.children) (h : Within inner child) : Within inner outer

/-- The locations of the tree itself, of its members with their names, and of its elements. -/
def locs : Tree → List Location
  | .object members loc => loc :: members.flatMap fun member => [member.loc, member.name.loc]
  | .array elements loc => loc :: elements.map Element.loc
  | .string _ loc | .number _ loc | .boolean _ loc | .null loc => [loc]

end Tree

end LocatedYaml
