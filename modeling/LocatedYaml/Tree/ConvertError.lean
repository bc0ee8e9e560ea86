import LocatedYaml.Document.LoadError

/-!
# Conversion errors

The reasons for which a source has no tree, and their wording.
-/

namespace LocatedYaml

/-- The scalar values that JSON has no counterpart for. -/
inductive UnsupportedScalar where
  | timestamp
  | binary
  deriving DecidableEq, Repr

def UnsupportedScalar.name : UnsupportedScalar → String
  | .timestamp => "timestamp"
  | .binary => "binary"

/-- The collections that cannot be the name of a member. -/
inductive UnsupportedKey where
  | mapping
  | sequence
  deriving DecidableEq, Repr

def UnsupportedKey.name : UnsupportedKey → String
  | .mapping => "mapping"
  | .sequence => "sequence"

/-- Why a source has no tree. -/
inductive ConvertError where
  /-- The input is not text. -/
  | notText
  | load (error : LoadError)
  /-- The source holds no document. -/
  | noContent
  | unsupportedScalar (kind : UnsupportedScalar) (loc : Location)
  | unsupportedKey (kind : UnsupportedKey) (loc : Location)
  deriving DecidableEq, Repr

def ConvertError.message : ConvertError → String
  | .notText => "YAML must be in string form"
  | .load error => error.message
  | .noContent => "YAML content null"
  | .unsupportedScalar kind _ => "Unexpected scalar value: " ++ kind.name
  | .unsupportedKey kind _ => "Unsupported " ++ kind.name ++ " used as a mapping key"

end LocatedYaml
