import LocatedYaml.Event.Basic
import LocatedYaml.Text.Quoted

/-!
# Load errors

The reasons for which a source does not load, and their wording.
-/

namespace LocatedYaml

/-- How starts and ends of collections can fail to match. -/
inductive Imbalance where
  | unterminated
  | sequenceEnd
  | mappingEnd
  deriving DecidableEq, Repr

/-- Why a source does not load. -/
inductive LoadError where
  /-- The text is not YAML. -/
  | malformed (error : SyntaxError)
  | multipleDocuments
  /-- The text of a scalar contradicts its tag. -/
  | invalidTaggedScalar (tag value : Text) (range : Option Range)
  | unbalanced (imbalance : Imbalance)
  deriving DecidableEq, Repr

def Imbalance.message : Imbalance → String
  | .unterminated => "unterminated collection"
  | .sequenceEnd => "sequence end without sequence start"
  | .mappingEnd => "mapping end without mapping start"

def LoadError.message : LoadError → String
  | .malformed error => error.message
  | .multipleDocuments => "Source contains multiple documents; only single-document input is supported"
  | .invalidTaggedScalar tag value _ =>
    "Invalid value for tag " ++ String.ofList tag ++ ": " ++ String.ofList value.quoted
  | .unbalanced imbalance => "Invalid YAML structure: " ++ imbalance.message

end LocatedYaml
