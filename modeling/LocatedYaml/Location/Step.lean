import LocatedYaml.Text.Basic

/-!
# Paths

A path leads from a node or a value to one inside it: into a mapping or an object by the text of a key, into a
sequence or an array by an index.
-/

namespace LocatedYaml

/-- One step of a path. -/
inductive Step where
  | key (name : Text)
  | index (index : Nat)
  deriving DecidableEq, Repr

end LocatedYaml
