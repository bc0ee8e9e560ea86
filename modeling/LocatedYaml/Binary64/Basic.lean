/-!
# Double-precision numbers

Binary floating-point numbers of 64 bits. The finite magnitudes in ascending order are numbered from 0: number
`rank` is `significand rank · 2 ^ exponent rank`, and `rank` is also what the 63 lower bits of the encoding hold.
All NaNs are one value.

`nearest` rounds an exact quotient to the nearest magnitude, a tie to the even rank; arithmetic is exact and then
rounded once.
-/

namespace LocatedYaml

/-- The number of magnitudes between two neighbouring powers of two, which is `2 ^ 52`. -/
def Binary64.binade : Nat := Nat.pow 2 52

/-- The number of finite magnitudes; the rank behind the largest of them stands for infinity. -/
def Binary64.infiniteRank : Nat := 2047 * Binary64.binade

inductive Binary64 where
  | nan
  | infinity (negative : Bool)
  | finite (negative : Bool) (rank : Fin Binary64.infiniteRank)
  deriving DecidableEq

namespace Binary64

/-- The significand of the magnitude with this rank. -/
def significand (rank : Nat) : Nat :=
  if rank < 2 * binade then rank else binade + rank % binade

/-- The exponent of two that the significand of this rank is scaled by. -/
def exponent (rank : Nat) : Int :=
  if rank < 2 * binade then -1074 else (rank / binade : Nat) - 1075

/-- The number with a sign and a rank; ranks from `infiniteRank` on give infinity. -/
def ofRank (negative : Bool) (rank : Nat) : Binary64 :=
  if h : rank < infiniteRank then .finite negative ⟨rank, h⟩ else .infinity negative

def zero : Binary64 := ofRank false 0

def neg : Binary64 → Binary64
  | .nan => .nan
  | .infinity negative => .infinity (!negative)
  | .finite negative rank => .finite (!negative) rank

/-! ### The encoding -/

/-- The bit of an encoding that holds the sign; the rank is below it. -/
def signBit : Nat := Nat.pow 2 63

/-- The number that a word of 64 bits encodes. -/
def ofBits (word : Nat) : Binary64 :=
  let rank := word % signBit
  if infiniteRank < rank then .nan else ofRank (word / signBit % 2 == 1) rank

/-- The word that encodes the number; of NaN there is none. -/
def toBits? : Binary64 → Option Nat
  | .nan => none
  | .infinity negative => some ((if negative then signBit else 0) + infiniteRank)
  | .finite negative rank => some ((if negative then signBit else 0) + rank)

/-! ### Rounding -/

/-- The integer nearest to `num / den`, a tie going to the even one. -/
def roundQuotient (num den : Nat) : Nat :=
  let below := num / den
  let rest := 2 * (num % den)
  if rest < den ∨ (rest = den ∧ below % 2 = 0) then below else below + 1

/-- The largest `e` with `2 ^ e ≤ num / den`, for positive `num` and `den`. -/
def binaryOrder (num den : Nat) : Int :=
  let e : Int := num.log2 - den.log2
  let fits := if 0 ≤ e then den * Nat.pow 2 e.toNat ≤ num else den ≤ num * Nat.pow 2 (-e).toNat
  if fits then e else e - 1

/-- The rank of the magnitude nearest to `num / den`; ties go to the even rank, and what lies beyond the finite
magnitudes has a rank of at least `infiniteRank`. -/
def nearestRank (num den : Nat) : Nat :=
  if num = 0 then 0
  else
    let q : Int := max (-1074) (binaryOrder num den - 52)
    let scaled :=
      if 0 ≤ q then roundQuotient num (den * Nat.pow 2 q.toNat) else roundQuotient (num * Nat.pow 2 (-q).toNat) den
    (q + 1074).toNat * binade + scaled

/-- The number nearest to `num / den` with the given sign. -/
def nearest (negative : Bool) (num den : Nat) : Binary64 := ofRank negative (nearestRank num den)

/-- The number nearest to an integer. -/
def ofInt (n : Int) : Binary64 := nearest (n < 0) n.natAbs 1

/-! ### Arithmetic -/

/-- A signed significand `m`, scaled by `2 ^ e` and rounded; `negative` is the sign of a zero. -/
def ofScaled (negative : Bool) (m : Int) (e : Int) : Binary64 :=
  let negative := if m = 0 then negative else m < 0
  if 0 ≤ e then nearest negative (m.natAbs * Nat.pow 2 e.toNat) 1
  else nearest negative m.natAbs (Nat.pow 2 (-e).toNat)

/-- The signed significand of a finite number. -/
def signedSignificand (negative : Bool) (rank : Nat) : Int :=
  if negative then -(significand rank : Int) else significand rank

def mul : Binary64 → Binary64 → Binary64
  | .nan, _ | _, .nan => .nan
  | .infinity s, .infinity t => .infinity (s != t)
  | .infinity s, .finite t rank | .finite s rank, .infinity t =>
    if rank.val = 0 then .nan else .infinity (s != t)
  | .finite s a, .finite t b =>
    ofScaled (s != t) (signedSignificand s a * signedSignificand t b) (exponent a + exponent b)

def add : Binary64 → Binary64 → Binary64
  | .nan, _ | _, .nan => .nan
  | .infinity s, .infinity t => if s = t then .infinity s else .nan
  | .infinity s, .finite _ _ | .finite _ _, .infinity s => .infinity s
  | .finite s a, .finite t b =>
    let e := min (exponent a) (exponent b)
    ofScaled (s && t)
      (signedSignificand s a * Nat.pow 2 (exponent a - e).toNat +
        signedSignificand t b * Nat.pow 2 (exponent b - e).toNat) e

instance : Neg Binary64 := ⟨neg⟩
instance : Mul Binary64 := ⟨mul⟩
instance : Add Binary64 := ⟨add⟩

/-! ### Integral values -/

/-- The integer that the number is, if it is one. -/
def toInt? : Binary64 → Option Int
  | .nan => none
  | .infinity _ => none
  | .finite negative rank =>
    let m := significand rank
    let e := exponent rank
    let magnitude? :=
      if 0 ≤ e then some (m * Nat.pow 2 e.toNat)
      else if m % Nat.pow 2 (-e).toNat = 0 then some (m / Nat.pow 2 (-e).toNat)
      else none
    magnitude?.map fun magnitude => if negative then -(magnitude : Int) else magnitude

end Binary64

end LocatedYaml
