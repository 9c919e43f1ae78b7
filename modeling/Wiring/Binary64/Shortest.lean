import Wiring.Binary64.Basic

/-!
# The shortest decimal of a double

Of all decimals that are read as a given double, `shortest` finds one with the fewest
digits, and of those the nearest to the double; an exact tie goes to the even digit. It compares
exact integers throughout.

- `Interval`: the reals that are read as `m · 2 ^ q`, in quarters of a unit in the last place. The
  ends belong to it exactly when `m` is even.
- `decade`: the power of ten just above the value.
- `shortest`: tries the grids of 1, 2, … 17 digits and takes the first with a point in the interval.
  If a grid has such a point, one of the value's two neighbours on that grid is one.
- `Layout.write`: the digits with a point or an exponent, as a `Layout` says.
-/

namespace Wiring.Binary64

/-- The reals that are read as one double, in units of `2 ^ unit`: `middle` is the double itself. -/
structure Interval where
  low : Nat
  middle : Nat
  high : Nat
  unit : Int
  /-- Whether the two ends are read as this double too. -/
  closed : Bool

/-- The interval around `m · 2 ^ q`. Below a power of two the gap to the next double is half as wide,
unless that double is subnormal. -/
def Interval.around (m : Nat) (q : Int) : Interval where
  low := 4 * m - (if m = pow2 52 ∧ minExponent < q then 1 else 2)
  middle := 4 * m
  high := 4 * m + 2
  unit := q - 2
  closed := m % 2 == 0

/-- The value of one step of the grid `10 ^ e`, and of one unit `2 ^ unit`, on a common scale. -/
def commonScale (e unit : Int) : Nat × Nat :=
  (pow10 e.toNat * pow2 (-unit).toNat, pow2 unit.toNat * pow10 (-e).toNat)

/-- Whether the grid point `d · 10 ^ e` is in the interval. -/
def Interval.contains (i : Interval) (d : Nat) (e : Int) : Bool :=
  let (step, one) := commonScale e i.unit
  let point := d * step
  if i.closed then i.low * one ≤ point && point ≤ i.high * one
  else i.low * one < point && point < i.high * one

/-- The interval's point on the grid `10 ^ e` that is nearest to the middle, if the grid has one. -/
def Interval.nearestOn (i : Interval) (e : Int) : Option Nat :=
  let (step, one) := commonScale e i.unit
  let below := i.middle * one / step
  let above := below + 1
  let toBelow := i.middle * one - below * step
  let toAbove := above * step - i.middle * one
  match i.contains below e, i.contains above e with
  | true, true =>
    if toBelow < toAbove ∨ (toBelow = toAbove ∧ below % 2 = 0) then some below else some above
  | true, false => some below
  | false, true => some above
  | false, false => none

/-- For positive `num / den`, the `p` with `10 ^ (p - 1) ≤ num / den < 10 ^ p`. -/
def decade (num den : Nat) : Int :=
  if den ≤ num then (Nat.toDigits 10 (num / den)).length
  -- Below one, the zeros behind the point are counted by the digits of the inverse.
  else 1 - ((Nat.toDigits 10 ((num + den - 1) / num - 1)).length : Nat)

/-- The first hit on the grids `10 ^ e`, `10 ^ (e - 1)`, … of which `grids` are tried. -/
def Interval.search (i : Interval) : (grids : Nat) → (e : Int) → Nat × Int
  | 0, e => (0, e)
  | grids + 1, e => match i.nearestOn e with
    | some d => (d, e)
    | none => i.search grids (e - 1)

/-- The shortest decimal `d · 10 ^ e` of the positive double `m · 2 ^ q`. Seventeen digits always
suffice. -/
def shortest (m : Nat) (q : Int) : Nat × Int :=
  (Interval.around m q).search 17 (decade (m * pow2 q.toNat) (pow2 (-q).toNat) - 1)

/-! ## Writing the digits -/

/-- Where positional notation ends: a value `0.d₁d₂… · 10 ^ p` is written with a plain point exactly
when `above < p ≤ upTo`, and with an exponent otherwise. -/
structure Layout where
  above : Int
  upTo : Int
deriving Repr

/-- Writes `0.d₁…dₙ · 10 ^ p`. The positional form has at least one digit on either side of the
point; the exponent is always signed and never padded. -/
def Layout.write (l : Layout) (digits : List Char) (p : Int) : List Char :=
  if l.above < p ∧ p ≤ l.upTo then
    if p ≤ 0 then '0' :: '.' :: (List.replicate (-p).toNat '0' ++ digits)
    else
      let whole := digits.take p.toNat ++ List.replicate (p.toNat - digits.length) '0'
      let fraction := digits.drop p.toNat
      whole ++ '.' :: (if fraction.isEmpty then ['0'] else fraction)
  else
    let x := p - 1
    digits.take 1 ++ (if digits.length = 1 then [] else '.' :: digits.drop 1) ++
      'e' :: (if x < 0 then '-' else '+') :: Nat.toDigits 10 x.natAbs

/-- The text of a finite double in a layout; zero keeps its sign. Infinities are written `inf`. -/
def text (l : Layout) : Binary64 → List Char
  | .infinite s => sign s ++ ['i', 'n', 'f']
  | .finite s m q =>
    if m = 0 then sign s ++ ['0', '.', '0']
    else
      let (d, e) := shortest m q
      let digits := Nat.toDigits 10 d
      sign s ++ l.write (digits.reverse.dropWhile (· == '0')).reverse (digits.length + e)
where
  sign (negative : Bool) : List Char := if negative then ['-'] else []

end Wiring.Binary64
