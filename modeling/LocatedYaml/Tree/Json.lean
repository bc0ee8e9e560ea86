import LocatedYaml.Json.Number
import LocatedYaml.Tree.Basic

/-!
# Trees as JSON

Every node of a tree is an object whose member `type` names its kind and whose last member is its location.
-/

namespace LocatedYaml

def Position.toJson (p : Position) : Json :=
  .record [("line", .ofInt p.line), ("column", .ofInt p.column), ("offset", .ofInt p.offset)]

def Location.toJson (loc : Location) : Json := .record [("start", loc.start.toJson), ("end", loc.stop.toJson)]

/-- An object of a kind: its type, its members and its location. -/
def Json.located (type : String) (members : List (String × Json)) (loc : Location) : Json :=
  .record (("type", .ofString type) :: members ++ [("loc", loc.toJson)])

def Name.toJson (name : Name) : Json := .located "String" [("value", .string name.value)] name.loc

namespace Tree

mutual

def toJson : Tree → Json
  | .object members loc => .located "Object" [("members", .array (membersToJson members))] loc
  | .array elements loc => .located "Array" [("elements", .array (elementsToJson elements))] loc
  | .string value loc => .located "String" [("value", .string value)] loc
  | .number value loc => .located "Number" [("value", .ofBinary64 value)] loc
  | .boolean value loc => .located "Boolean" [("value", .bool value)] loc
  | .null loc => .located "Null" [] loc

def membersToJson : List (Member Tree) → List Json
  | [] => []
  | ⟨name, value, loc⟩ :: members =>
    .located "Member" [("name", name.toJson), ("value", value.toJson)] loc :: membersToJson members

def elementsToJson : List (Element Tree) → List Json
  | [] => []
  | ⟨value, loc⟩ :: elements => .located "Element" [("value", value.toJson)] loc :: elementsToJson elements

end

def Document.toJson (doc : Document) : Json := .located "Document" [("body", doc.body.toJson)] doc.loc

end Tree

end LocatedYaml
