import LocatedYaml.Text.Basic

/-!
# JSON values

Numbers are kept as their numerals, and the members of an object in their order.
-/

namespace LocatedYaml

inductive Json where
  | null
  | bool (value : Bool)
  | number (numeral : Text)
  | string (value : Text)
  | array (items : List Json)
  | object (members : List (Text × Json))
  deriving Inhabited

namespace Json

/-- The numeral of an integer. -/
def ofInt (n : Int) : Json :=
  .number (if n < 0 then '-' :: Nat.toDigits 10 n.natAbs else Nat.toDigits 10 n.natAbs)

def ofNat (n : Nat) : Json := ofInt n

def ofString (s : String) : Json := .string s.toList

/-- An object with names given as string literals. -/
def record (members : List (String × Json)) : Json := .object (members.map fun (name, v) => (name.toList, v))

/-- The value, or null. -/
def ofOption (f : α → Json) : Option α → Json
  | some a => f a
  | none => .null

end Json

end LocatedYaml
