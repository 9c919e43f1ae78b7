import Wiring.Decimal.Canonical
import Wiring.Decimal.Numeral

/-!
# Reading integers of 64 bits digit by digit

An integer can be read without ever leaving 64 bits. The digits are taken one at a time: what has been read
is multiplied by ten, and the digit is added to it, or taken from it behind a minus. A step that leaves the
64 bits ends the reading.

- `Bounded.read?`: the integer of a whole text. A plus sign and leading zeros are fine.
- `Bounded.canonical?`: the integer that is read and that prints as the text.
-/

namespace Wiring.Decimal.Bounded

/-- An integer, unless it is beyond 64 bits. -/
def check (n : Int) : Option Int := if fitsInt64 n then some n else none

/-- One more digit. Behind a minus the integer goes down, so the least one is reached as well. -/
def push (negative : Bool) (n : Int) (c : Char) : Option Int :=
  if c.isDigit then
    let digit : Int := (c.toNat - '0'.toNat : Nat)
    (check (n * 10)).bind fun tens => check (if negative then tens - digit else tens + digit)
  else none

/-- The integer of a text: a sign or none, and at least one digit. -/
def read? (cs : List Char) : Option Int :=
  let signed := takeSign cs
  if signed.2 = [] then none else signed.2.foldlM (push (signed.1 == some '-')) 0

/-- The integer of a text, if it prints as the text. -/
def canonical? (text : String) : Option Int := (read? text.toList).filter (toString · = text)

end Wiring.Decimal.Bounded
