import LocatedYaml.Node.Basic

/-!
# Events

A YAML text read as a row of events: the start and the end of the stream, of documents and of collections, scalars
and aliases. Each comes with the index of the character where it was found. Reading may also fail.
-/

namespace LocatedYaml

/-- A place in a text: characters before it, line from 1, characters before it on the line. -/
structure Mark where
  index : Nat
  line : Nat
  column : Nat
  deriving DecidableEq, Repr

/-- A place where the text is not YAML, and why. -/
structure SyntaxError where
  info : String
  mark : Mark
  deriving DecidableEq, Repr

def SyntaxError.message (e : SyntaxError) : String :=
  e.info ++ " at byte " ++ toString e.mark.index ++ " line " ++ toString e.mark.line ++ " column " ++
    toString (e.mark.column + 1)

/-- A tag as it is read: a handle, with what it stands for in the document, and the rest. -/
structure Tag where
  handle : Text
  suffix : Text
  deriving DecidableEq, Repr

/-- An event. Anchor 0 on a scalar or a collection means that there is none. -/
inductive Event where
  | nothing
  | streamStart
  | streamEnd
  | documentStart
  | documentEnd
  | aliasOf (anchor : AnchorId)
  | scalar (value : Text) (style : Scalar.Style) (anchor : AnchorId) (tag : Option Tag)
  | sequenceStart (anchor : AnchorId)
  | sequenceEnd
  | mappingStart (anchor : AnchorId)
  | mappingEnd
  deriving DecidableEq, Repr

/-- An event and the index of the character where it was found. -/
structure MarkedEvent where
  event : Event
  index : Nat
  deriving DecidableEq, Repr

/-- What reading a text gives at each step. -/
abbrev Reading := Except SyntaxError MarkedEvent

end LocatedYaml
