import LocatedYaml.Event.Reader
import LocatedYaml.Options
import LocatedYaml.Tree.Convert

/-!
# Loading and converting

The two main functions of the library: `load` reads a YAML text to a document, and `convert` turns an input into a
located tree.
-/

namespace LocatedYaml

/-- What is to be converted. -/
inductive Input where
  | text (source : Text)
  | binary (bytes : ByteArray)

/-- Bytes as an input: a text, if they are the UTF-8 form of one. -/
def Input.ofBytes (bytes : ByteArray) : Input :=
  match String.fromUTF8? bytes with
  | some s => .text s.toList
  | none => .binary bytes

/-- The document in a YAML text. -/
def load (source : Text) (options : Options) : Except LoadError Document :=
  Document.ofReadings source options.version (Event.ofText source)

/-- The located tree of an input. Only texts are converted. -/
def convert (input : Input) (options : Options) : Except ConvertError Tree.Document :=
  match input with
  | .text source => Tree.Document.ofReadings source options.version (Event.ofText source)
  | .binary _ => .error .notText

end LocatedYaml
