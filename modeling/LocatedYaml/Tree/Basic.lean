import LocatedYaml.Binary64.Basic
import LocatedYaml.Location.Basic
import LocatedYaml.Location.Step
import LocatedYaml.Text.Basic

/-!
# Located trees

The tree that a document is converted to: the values of JSON, each with its location in the source.
-/

namespace LocatedYaml

/-- The name of a member. -/
structure Name where
  value : Text
  loc : Location
  deriving DecidableEq

/-- A name and its value; the location runs from the name through the value. -/
structure Member (α : Type) where
  name : Name
  value : α
  loc : Location

/-- An item of an array. -/
structure Element (α : Type) where
  value : α
  loc : Location

inductive Tree where
  | object (members : List (Member Tree)) (loc : Location)
  | array (elements : List (Element Tree)) (loc : Location)
  | string (value : Text) (loc : Location)
  | number (value : Binary64) (loc : Location)
  | boolean (value : Bool) (loc : Location)
  | null (loc : Location)

namespace Tree

def loc : Tree → Location
  | .object _ loc | .array _ loc | .string _ loc | .number _ loc | .boolean _ loc | .null loc => loc

/-- The name of the kind of value. -/
def kind : Tree → String
  | .object .. => "Object"
  | .array .. => "Array"
  | .string .. => "String"
  | .number .. => "Number"
  | .boolean .. => "Boolean"
  | .null _ => "Null"

/-- A whole document: its value, located in the whole text. -/
structure Document where
  body : Tree
  loc : Location

/-! ### Looking inside -/

def members? : Tree → Option (List (Member Tree))
  | .object members _ => some members
  | _ => none

def elements? : Tree → Option (List (Element Tree))
  | .array elements _ => some elements
  | _ => none

def string? : Tree → Option Text
  | .string value _ => some value
  | _ => none

def number? : Tree → Option Binary64
  | .number value _ => some value
  | _ => none

def boolean? : Tree → Option Bool
  | .boolean value _ => some value
  | _ => none

def isNull : Tree → Bool
  | .null _ => true
  | _ => false

/-- The first member of an object with this name. -/
def get? (name : Text) (tree : Tree) : Option (Member Tree) :=
  tree.members?.bind fun members => members.find? fun member => member.name.value = name

/-- The element of an array with this index. -/
def element? (index : Nat) (tree : Tree) : Option (Element Tree) :=
  tree.elements?.bind fun elements => elements[index]?

/-- The value that a path leads to, with its member if the last step is a name. -/
def follow? (tree : Tree) : List Step → Option (Tree × Option (Member Tree))
  | [] => some (tree, none)
  | [.key name] => (tree.get? name).map fun member => (member.value, some member)
  | .key name :: path => (tree.get? name).bind fun member => member.value.follow? path
  | .index index :: path => (tree.element? index).bind fun element => element.value.follow? path

end Tree

end LocatedYaml
