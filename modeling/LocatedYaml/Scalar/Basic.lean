import LocatedYaml.Binary64.Basic
import LocatedYaml.Text.Basic

/-!
# Scalar values

What the text of a scalar stands for once the rules of a YAML version have been applied to it, and the ways of
writing a scalar.
-/

namespace LocatedYaml.Scalar

/-- How a scalar is written. -/
inductive Style where
  | plain
  | singleQuoted
  | doubleQuoted
  | literal
  | folded
  deriving DecidableEq, Repr

/-- Literal and folded scalars stand on lines of their own, below a header. -/
def Style.isBlock : Style → Bool
  | .literal | .folded => true
  | _ => false

/-- The value of a scalar. Integers lie in the signed range of 64 bits. -/
inductive Value where
  | null
  | bool (value : Bool)
  | int (value : Int)
  | float (value : Binary64)
  | string (value : Text)
  /-- Only under YAML 1.1. -/
  | binary (bytes : List UInt8)
  /-- A timestamp as it is written; only under YAML 1.1. -/
  | timestamp (text : Text)
  deriving DecidableEq

/-- The name of the value's type, for messages. -/
def Value.typeName : Value → String
  | .null => "null"
  | .bool _ => "boolean"
  | .int _ => "integer"
  | .float _ => "float"
  | .string _ => "string"
  | .binary _ => "binary"
  | .timestamp _ => "timestamp"

end LocatedYaml.Scalar
