import Wiring.Binary64.Basic
import Wiring.Decimal.Numeral

/-!
# Decimals computed in double precision

The digits of a numeral that fit 64 bits are rounded to a double, which is then multiplied or divided by a
power of ten. The power is a double too, so several roundings come one after the other, and the outcome is
not always the double nearest to the numeral: `3e23` comes out as `2.9999999999999997e23`.

- `Numeral.truncated`: the significand of at most 64 bits, with its power of ten.
- `Numeral.stepwise`: the double.
-/

namespace Wiring.Decimal

/-- Appends digits to a number, as long as it fits 64 bits. The other digits are left over. -/
def absorb (held : Nat) : List Char → Nat × List Char
  | [] => (held, [])
  | c :: cs =>
    let longer := 10 * held + (c.toNat - '0'.toNat)
    if longer < 0x10000000000000000 then absorb longer cs else (held, c :: cs)

/-- The digits that fit 64 bits, read as one number, and the power of ten that it is multiplied by. A digit
that is left over before the point still counts for the power. Behind the point, digits are tried again. -/
def Numeral.truncated (n : Numeral) : Nat × Int :=
  let whole := absorb 0 n.whole
  let fraction := absorb whole.1 (n.fraction.getD [])
  (fraction.1, n.scale + whole.2.length + fraction.2.length)

namespace Stepwise

/-- The exponent of the largest power of ten that has a double. -/
def maxPower : Nat := 308

/-- The double nearest to a power of ten. -/
def power (k : Nat) : Binary64 := .ofDecimal false 1 k

/-- Divides by the largest power a number of times, until zero is reached. -/
def divide : Nat → Binary64 → Binary64
  | 0, x => x
  | steps + 1, x => if x.isZero then x else divide steps (x.dividedBy (power maxPower))

/-- `x · 10 ^ scale`, one rounded operation after the other. Beyond the largest power of ten, only zero is
left finite. -/
def scaleBy (x : Binary64) (scale : Int) : Binary64 :=
  if 0 ≤ scale then
    if scale ≤ maxPower then x.times (power scale.toNat)
    else if x.isZero then x
    else .infinite x.isNegative
  else
    let steps := ((-scale).toNat - 1) / maxPower
    (divide steps x).dividedBy (power ((-scale).toNat - steps * maxPower))

end Stepwise

/-- The double that a numeral comes out as. -/
def Numeral.stepwise (n : Numeral) : Binary64 :=
  let (significand, scale) := n.truncated
  Stepwise.scaleBy (.nearest n.negative significand 1) scale

/-- The double nearest to `3e23` is the next one. -/
example : (Numeral.scan "3e23".toList).1.stepwise = .finite false 8940696716308593 25 := by
  decide +kernel

end Wiring.Decimal
