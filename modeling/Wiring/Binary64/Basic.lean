/-!
# Double precision numbers

A `Binary64` is a sign with either infinity or an exact value `significand · 2 ^ exponent`. The
document formats only read and write such numbers; what matters is which number a decimal is read as.

- `Binary64.nearest`: the double nearest to an exact fraction, a tie going to the even significand.
- `Binary64.ofDecimal`: the double nearest to `significand · 10 ^ scale`, infinite when the decimal
  is too large and zero when it is too small.
- `Binary64.times`, `Binary64.dividedBy`: products and quotients, rounded to the nearest double.

Every finite number these functions return is *canonical*: the significand is below `2 ^ 53`, the
exponent at least `-1074`, and the significand reaches `2 ^ 52` unless the exponent is `-1074`. So
equal values are equal terms.
-/

namespace Wiring

/-- A double: `± significand · 2 ^ exponent`, or an infinity. -/
inductive Binary64 where
  | finite (negative : Bool) (significand : Nat) (exponent : Int)
  | infinite (negative : Bool)
deriving DecidableEq, Repr

namespace Binary64

/-- The exponent of the smallest positive double. -/
def minExponent : Int := -1074

/-- The exponent of the largest finite double. -/
def maxExponent : Int := 971

/-- A power of two. -/
def pow2 (k : Nat) : Nat := Nat.pow 2 k

/-- A power of ten. -/
def pow10 (k : Nat) : Nat := Nat.pow 10 k

/-- Zero has a sign too. -/
def zero (negative : Bool) : Binary64 := .finite negative 0 minExponent

/-- The quotient rounded to the nearest natural number, a half going to the even neighbour. -/
def roundHalfEven (num den : Nat) : Nat :=
  let down := num / den
  let twice := 2 * (num % den)
  if twice < den then down
  else if den < twice then down + 1
  else down + down % 2

/-- For positive arguments, the greatest `b` with `2 ^ b ≤ num / den`. -/
def floorLog2 (num den : Nat) : Int :=
  -- The quotient lies between one half of `2 ^ guess` and twice as much.
  let guess : Int := (num.log2 : Int) - den.log2
  if den * pow2 guess.toNat ≤ num * pow2 (-guess).toNat then guess else guess - 1

/-- The double nearest to `num / den`, with the given sign. -/
def nearest (negative : Bool) (num den : Nat) : Binary64 :=
  if num = 0 then zero negative
  else
    let exponent := max minExponent (floorLog2 num den - 52)
    let significand := roundHalfEven (num * pow2 (-exponent).toNat) (den * pow2 exponent.toNat)
    -- Rounding up may carry into a new digit, which leaves a power of two.
    let (significand, exponent) :=
      if significand = pow2 53 then (pow2 52, exponent + 1) else (significand, exponent)
    if maxExponent < exponent then .infinite negative
    else .finite negative significand exponent

/-- The double nearest to `significand · 10 ^ scale`, with the given sign. A value of at least
`10 ^ 310` or below `10 ^ -330` is settled by its size, before the power of ten is computed. -/
def ofDecimal (negative : Bool) (significand : Nat) (scale : Int) : Binary64 :=
  if significand = 0 then zero negative
  else
    let magnitude : Int := ((Nat.toDigits 10 significand).length : Int) + scale
    if 310 < magnitude then .infinite negative
    else if magnitude < -330 then zero negative
    else nearest negative (significand * pow10 scale.toNat) (pow10 (-scale).toNat)

/-- The double nearest to an integer. -/
def ofInt (n : Int) : Binary64 := ofDecimal (decide (n < 0)) n.natAbs 0

/-- Whether a double is zero, of either sign. -/
def isZero : Binary64 → Bool
  | .finite _ significand _ => significand == 0
  | .infinite _ => false

/-- Whether a double has a minus sign. -/
def isNegative : Binary64 → Bool
  | .finite negative .. => negative
  | .infinite negative => negative

/-- The double nearest to `num / den · 2 ^ exponent`, with the given sign. -/
def nearestScaled (negative : Bool) (num den : Nat) (exponent : Int) : Binary64 :=
  nearest negative (num * pow2 exponent.toNat) (den * pow2 (-exponent).toNat)

/-- The product. It is infinite when a factor is. -/
def times (x y : Binary64) : Binary64 :=
  match x, y with
  | .finite s m p, .finite t n q => nearestScaled (s != t) (m * n) 1 (p + q)
  | x, y => .infinite (x.isNegative != y.isNegative)

/-- The quotient by a double that is not zero. It is infinite when the dividend is, and zero when only
the divisor is. -/
def dividedBy (x y : Binary64) : Binary64 :=
  match x, y with
  | .finite s m p, .finite t n q => nearestScaled (s != t) m n (p - q)
  | .finite s .., .infinite t => zero (s != t)
  | .infinite s, y => .infinite (s != y.isNegative)

/-- Whether a double has a decimal text at all. -/
def isFinite : Binary64 → Bool
  | .finite .. => true
  | .infinite _ => false

end Binary64

end Wiring
