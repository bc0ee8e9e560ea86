import LocatedYaml.Node.AnchorTable
import LocatedYaml.Version

/-!
# Documents

A loaded document: its root, the version its scalars were resolved with, and the nodes that aliases refer to.
-/

namespace LocatedYaml

structure Document where
  /-- The root; none when the source holds no document. -/
  contents : Option Node
  version : Version
  anchors : AnchorTable

namespace Document

/-- The node that an alias with this number refers to. It may contain that alias again. -/
def resolve? (doc : Document) (id : AnchorId) : Option Node := doc.anchors.find? id

end Document

end LocatedYaml
