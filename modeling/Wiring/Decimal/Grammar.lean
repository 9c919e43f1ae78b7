import Mathlib.Computability.Language
import Wiring.Decimal.Leading

/-!
# The grammar of numbers

- `Grammar.numerals`: the numerals that a text may start with. At least one digit stands on one side of
  the point, and an exponent has a digit.
- `Grammar.heads`: what a text that starts with a number starts with.
- `Grammar.doubles`: the texts that a reader of doubles takes as a whole.
- `Grammar.integers`: the decimal forms of integers. A number starts with a zero only if it is zero.
-/

namespace Wiring.Decimal

/-- A prefix in a language, and no longer one is in it. -/
structure IsLongestPrefix (l : Language Char) (p cs : List Char) : Prop where
  mem : p ∈ l
  isPrefix : p <+: cs
  length_le : ∀ q ∈ l, q <+: cs → q.length ≤ p.length

namespace Grammar

open scoped Computability

/-- The texts of one character, which has a property. -/
def one (p : Char → Prop) : Language Char := {w | ∃ c, p c ∧ w = [c]}

/-- A text of a language, or nothing. -/
def optional (l : Language Char) : Language Char := 1 + l

/-- A word in letters of either case. -/
def spelled (word : String) : Language Char := {w | w.map Char.toLower = word.toList}

/-- A sign. -/
def sign : Language Char := one fun c => c = '+' ∨ c = '-'

/-- A digit. -/
def digit : Language Char := one fun c => c.isDigit = true

/-- One digit or more. -/
def digits : Language Char := digit * digit∗

/-- Digits that do not start with a zero. -/
def unpadded : Language Char := one (fun c => '1' ≤ c ∧ c ≤ '9') * digit∗

/-- Decimal forms: a zero alone, or a minus or none and digits that do not start with a zero. -/
def integers : Language Char := one (· = '0') + optional (one (· = '-')) * unpadded

/-- A point. -/
def point : Language Char := one (· = '.')

/-- A point with the digits behind it, possibly none. -/
def fraction : Language Char := point * digit∗

/-- An exponent with its mark. -/
def exponent : Language Char := one (fun c => c = 'e' ∨ c = 'E') * optional sign * digits

/-- Numerals: a sign, digits with a point, and an exponent. -/
def numerals : Language Char :=
  optional sign * (digits * optional fraction + point * digits) * optional exponent

/-- The shortest numerals. -/
def shortest : Language Char := optional sign * (digit + point * digit)

/-- The word for an infinite number. -/
def infinity : Language Char := {w | w = infinityWord}

/-- The infinite numbers. -/
def infinities : Language Char := optional sign * infinity

/-- What a text with a number starts with. -/
def heads : Language Char := infinities + shortest

/-- The texts of doubles. Those that are no number are among them. -/
def doubles : Language Char :=
  optional sign * (spelled "inf" + spelled "infinity" + spelled "nan" +
    (digits + digits * point * digit∗ + digit∗ * point * digits) * optional exponent)

end Grammar

end Wiring.Decimal
