import LocatedYaml.Binary64.Basic

/-!
# Decimals and double-precision numbers

Reading a decimal gives the nearest number. Writing a number takes the fewest digits that read back as the same
number, and among those the decimal nearest to it.
-/

namespace LocatedYaml

/-- The decimal `digits · 10 ^ scale`. -/
structure Decimal where
  digits : Nat
  scale : Int
  deriving DecidableEq, Repr

namespace Decimal

/-- A scale with the same nearest number, small enough to compute with: `10 ^ 400` lies beyond all finite numbers,
and `digits · 10 ^ scale` below `10 ^ -400` is nearest to zero. -/
def boundedScale (d : Decimal) : Int := max (-(d.digits.log2 + 401 : Nat)) (min d.scale 400)

/-- The rank of the magnitude nearest to the decimal. -/
def nearestRank (d : Decimal) : Nat :=
  let scale := d.boundedScale
  if 0 ≤ scale then Binary64.nearestRank (d.digits * Nat.pow 10 scale.toNat) 1
  else Binary64.nearestRank d.digits (Nat.pow 10 (-scale).toNat)

/-- The number nearest to the decimal, with the given sign. -/
def toBinary64 (negative : Bool) (d : Decimal) : Binary64 := .ofRank negative d.nearestRank

/-- Without zeros at the end of the digits; zero stays as it is. -/
def dropZeros (d : Decimal) : Decimal :=
  if h : d.digits ≠ 0 ∧ d.digits % 10 = 0 then dropZeros ⟨d.digits / 10, d.scale + 1⟩ else d
termination_by d.digits
decreasing_by omega

end Decimal

namespace Binary64

/-- A magnitude as a quotient of two integers. -/
def quotient (rank : Nat) : Nat × Nat :=
  let m := significand rank
  let e := exponent rank
  if 0 ≤ e then (m * Nat.pow 2 e.toNat, 1) else (m, Nat.pow 2 (-e).toNat)

/-- `num / den` divided by `10 ^ scale`, as a quotient. -/
def rescale (num den : Nat) (scale : Int) : Nat × Nat :=
  if 0 ≤ scale then (num, den * Nat.pow 10 scale.toNat) else (num * Nat.pow 10 (-scale).toNat, den)

/-- The largest `e` with `10 ^ e ≤ num / den`: the binary order times `log 2`, corrected by at most one. -/
def decimalOrder (num den : Nat) : Int :=
  let e := binaryOrder num den * 30103 / 100000
  let (n, d) := rescale num den e
  if n < d then e - 1 else if 10 * d ≤ n then e + 1 else e

/-- The decimals with the given scale next to `num / den`, the nearer one first, of a tie the even one. -/
def neighbours (num den : Nat) (scale : Int) : List Decimal :=
  let (n, d) := rescale num den scale
  let below := n / d
  let rest := 2 * (n % d)
  if rest < d ∨ (rest = d ∧ below % 2 = 0) then [⟨below, scale⟩, ⟨below + 1, scale⟩]
  else [⟨below + 1, scale⟩, ⟨below, scale⟩]

/-- The decimal with the fewest digits that reads back as the magnitude of this rank; 17 digits always do. -/
def shortest (rank : Nat) : Decimal :=
  let (num, den) := quotient rank
  let order := decimalOrder num den
  let candidates := (List.range 17).flatMap fun n : Nat => neighbours num den (order - n)
  match candidates.find? fun d => d.nearestRank = rank with
  | some d => d.dropZeros
  | none => ⟨0, 0⟩

end Binary64

end LocatedYaml
