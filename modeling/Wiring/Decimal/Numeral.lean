/-!
# Decimal numerals at the head of a text

A numeral is an optional sign, digits, an optional point with digits, and an optional exponent.
`Numeral.scan` reads the longest one that a list of characters starts with and returns it with the
rest; nothing is lost on the way (`Numeral.scan_text`). Which numerals are well formed is for the
readers to say: JSON wants digits on both sides of a point, the coercion of literals is content with
digits on one side.

- `Numeral.hasDigits`: at least one digit stands before the exponent.
- `Numeral.significand`, `Numeral.scale`: the value is `± significand · 10 ^ scale`.
-/

namespace Wiring.Decimal

/-- The exponent part of a numeral: its mark, its sign if one is written, and its digits. -/
structure Exponent where
  mark : Char
  sign : Option Char
  digits : List Char
deriving DecidableEq, Repr

/-- The parts of a numeral, as written. -/
structure Numeral where
  sign : Option Char
  whole : List Char
  /-- The digits after the point; absent when no point is written. -/
  fraction : Option (List Char)
  exponent : Option Exponent
deriving DecidableEq, Repr

/-- An optional sign and what follows it. -/
def takeSign : List Char → Option Char × List Char
  | '+' :: cs => (some '+', cs)
  | '-' :: cs => (some '-', cs)
  | cs => (none, cs)

/-- The leading digits and what follows them. -/
def takeDigits (cs : List Char) : List Char × List Char :=
  (cs.takeWhile Char.isDigit, cs.dropWhile Char.isDigit)

/-- A point with the digits behind it, possibly none, and what follows. -/
def takeFraction : List Char → Option (List Char) × List Char
  | '.' :: cs => (some (takeDigits cs).1, (takeDigits cs).2)
  | cs => (none, cs)

/-- An exponent and what follows it. A mark counts only when at least one digit belongs to it. -/
def takeExponent : List Char → Option Exponent × List Char
  | [] => (none, [])
  | mark :: cs =>
    let signed := takeSign cs
    let digits := takeDigits signed.2
    if (mark = 'e' ∨ mark = 'E') ∧ digits.1 ≠ [] then (some ⟨mark, signed.1, digits.1⟩, digits.2)
    else (none, mark :: cs)

namespace Numeral

/-- The longest numeral that `cs` starts with, and the rest. -/
def scan (cs : List Char) : Numeral × List Char :=
  let signed := takeSign cs
  let whole := takeDigits signed.2
  let fraction := takeFraction whole.2
  let exponent := takeExponent fraction.2
  (⟨signed.1, whole.1, fraction.1, exponent.1⟩, exponent.2)

/-- The characters of a numeral. -/
def text (n : Numeral) : List Char :=
  n.sign.toList ++ n.whole ++ (n.fraction.elim [] ('.' :: ·)) ++
    (n.exponent.elim [] fun e => e.mark :: (e.sign.toList ++ e.digits))

/-- The digits before the exponent, from both sides of the point. -/
def digits (n : Numeral) : List Char := n.whole ++ n.fraction.getD []

/-- At least one digit stands before the exponent. -/
def hasDigits (n : Numeral) : Bool := !n.digits.isEmpty

/-- Whether the numeral has a minus sign. A plus sign changes nothing. -/
def negative (n : Numeral) : Bool := n.sign == some '-'

/-- The digits before the exponent, read as one number. -/
def significand (n : Numeral) : Nat := Nat.ofDigitChars 10 n.digits 0

/-- The power of ten that the significand is multiplied by. -/
def scale (n : Numeral) : Int :=
  let written : Int := match n.exponent with
    | none => 0
    | some e =>
      let size : Int := (Nat.ofDigitChars 10 e.digits 0 : Nat)
      if e.sign = some '-' then -size else size
  written - ((n.fraction.getD []).length : Nat)

end Numeral

/-! ## Scanning loses nothing -/

/-- The sign and what follows it make up the text. -/
theorem takeSign_text (cs : List Char) : (takeSign cs).1.toList ++ (takeSign cs).2 = cs := by
  unfold takeSign
  split <;> rfl

/-- The digits and what follows them make up the text. -/
theorem takeDigits_text (cs : List Char) : (takeDigits cs).1 ++ (takeDigits cs).2 = cs :=
  List.takeWhile_append_dropWhile

/-- The fraction, with its point, and what follows it make up the text. -/
theorem takeFraction_text (cs : List Char) :
    (takeFraction cs).1.elim [] ('.' :: ·) ++ (takeFraction cs).2 = cs := by
  unfold takeFraction
  split
  · simp [takeDigits_text]
  · rfl

/-- The exponent and what follows it make up the text. -/
theorem takeExponent_text (cs : List Char) :
    ((takeExponent cs).1.elim [] fun e => e.mark :: (e.sign.toList ++ e.digits)) ++
      (takeExponent cs).2 = cs := by
  unfold takeExponent
  split
  · rfl
  · next mark cs =>
    dsimp only
    split
    · simp [takeDigits_text, takeSign_text]
    · rfl

/-- The numeral and the rest make up the text that was scanned. -/
theorem Numeral.scan_text (cs : List Char) :
    (Numeral.scan cs).1.text ++ (Numeral.scan cs).2 = cs := by
  simp only [Numeral.scan, Numeral.text, List.append_assoc, takeExponent_text, takeFraction_text,
    takeDigits_text, takeSign_text]

end Wiring.Decimal
