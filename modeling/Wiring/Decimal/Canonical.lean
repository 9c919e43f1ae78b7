/-!
# Canonical decimal integers

A text is the canonical form of an integer when printing the integer gives the text back. So there is
no plus sign, no leading zero and no `-0`, and every integer has one canonical form. Only the integers
of 64 bits are read.
-/

namespace Wiring.Decimal

/-- The signed integers of 64 bits. -/
def fitsInt64 (n : Int) : Bool := -0x8000000000000000 ≤ n && n < 0x8000000000000000

/-- An optional minus and digits, read as an integer. For other texts the result means nothing. -/
def readInteger : List Char → Int
  | '-' :: digits => -(Nat.ofDigitChars 10 digits 0 : Nat)
  | digits => (Nat.ofDigitChars 10 digits 0 : Nat)

/-- The 64-bit integer whose canonical form is the text. -/
def canonicalInt64? (text : String) : Option Int :=
  let n := readInteger text.toList
  if fitsInt64 n ∧ toString n = text then some n else none

end Wiring.Decimal
