import LocatedYaml.Token.Fault

/-!
# Tokens

The pieces a YAML text is cut into. Indentation shows as tokens too: the start of a block collection, and its end.
-/

namespace LocatedYaml

inductive TokenKind where
  | streamEnd
  | versionDirective
  /-- A handle and the text it stands for. -/
  | tagDirective (handle expansion : Text)
  | documentStart
  | documentEnd
  | blockSequenceStart
  | blockMappingStart
  | blockEnd
  | flowSequenceStart
  | flowSequenceEnd
  | flowMappingStart
  | flowMappingEnd
  | blockEntry
  | flowEntry
  | key
  | value
  | aliasOf (name : Text)
  | anchor (name : Text)
  | tag (tag : Tag)
  | scalar (style : Scalar.Style) (text : Text)
  deriving DecidableEq, Repr

structure Token where
  kind : TokenKind
  mark : Mark
  deriving DecidableEq, Repr

/-- A token and the place up to which the text had to be read before the token was certain. -/
structure ReadToken where
  token : Token
  reached : Mark
  deriving DecidableEq, Repr

end LocatedYaml
