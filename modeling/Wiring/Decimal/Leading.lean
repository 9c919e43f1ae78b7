import Wiring.Binary64.Basic
import Wiring.Decimal.Numeral
import Wiring.Text.Blank

/-!
# The number that a text starts with

White space before the number and anything after it are ignored, so `3.5px` starts with `3.5`. The
number is the word `Infinity`, with or without a sign, or the longest numeral with at least one digit.
A number beyond the largest double is infinite.
-/

namespace Wiring.Decimal

/-- The word for an infinite number. -/
def infinityWord : List Char := "Infinity".toList

/-- The double that a text starts with. -/
def leadingDouble? (text : List Char) : Option Binary64 :=
  let cs := text.dropWhile Text.isBlank
  let (sign, unsigned) := takeSign cs
  if infinityWord.isPrefixOf unsigned then some (.infinite (sign == some '-'))
  else
    let (n, _) := Numeral.scan cs
    if n.hasDigits then some (Binary64.ofDecimal n.negative n.significand n.scale) else none

end Wiring.Decimal
