import Wiring.Decimal.Leading

/-!
# Reading the number at the head of a text by its bytes

The number that a text starts with can be found by moving cursors over the bytes of the text, up to where
the numeral ends. The text is then cut there, and what has been cut off is read as a double.

- `parseDouble?`: the double of a whole text.
- `Cursor.leading`: what the cursors find. A cut may fall into a character.
- `Cursor.read?`: the number; absent when a cut falls into a character.
-/

namespace Wiring.Decimal

/-- What a text of a double stands for. -/
inductive Double where
  | number (x : Binary64)
  | notNumber
deriving DecidableEq, Repr

/-- The double of a text. Words may be in letters of either case. -/
def parseDouble? (cs : List Char) : Option Double :=
  let signed := takeSign cs
  let word := signed.2.map Char.toLower
  if word = "inf".toList ∨ word = "infinity".toList then
    some (.number (.infinite (signed.1 == some '-')))
  else if word = "nan".toList then some .notNumber
  else
    let (n, rest) := Numeral.scan cs
    if n.hasDigits ∧ rest = [] then
      some (.number (Binary64.ofDecimal n.negative n.significand n.scale))
    else none

namespace Cursor

/-- The bytes of a text. -/
def utf8 (cs : List Char) : List UInt8 := cs.flatMap String.utf8EncodeChar

/-- The ASCII character at an offset. -/
def ascii? (bytes : List UInt8) (i : Nat) : Option Char :=
  (bytes[i]?.map fun b => Char.ofNat b.toNat).filter (·.toNat < 0x80)

/-- The text before an offset and the text after it. There is none inside a character, nor behind the end. -/
def cut? : List Char → Nat → Option (List Char × List Char)
  | cs, 0 => some ([], cs)
  | [], _ + 1 => none
  | c :: cs, n + 1 =>
    if c.utf8Size ≤ n + 1 then
      (cut? cs (n + 1 - c.utf8Size)).map fun (before, after) => (c :: before, after)
    else none

/-- A sign. -/
def isSign (c : Char) : Bool := c == '+' || c == '-'

/-- The mark of an exponent. -/
def isMark (c : Char) : Bool := c == 'e' || c == 'E'

theorem lt_length {bytes : List UInt8} {i : Nat} {p : Char → Bool}
    (h : (ascii? bytes i).any p = true) : i < bytes.length := by
  refine Nat.lt_of_not_le fun hge => ?_
  rw [ascii?, List.getElem?_eq_none hge] at h
  cases h

/-- Where the digits end that start at `i`. -/
def digitsEnd (bytes : List UInt8) (i : Nat) : Nat :=
  if (ascii? bytes i).any Char.isDigit then digitsEnd bytes (i + 1) else i
termination_by bytes.length - i
decreasing_by
  have hlt : i < bytes.length := lt_length ‹_›
  omega

/-- Where a sign at `i` ends. -/
def signEnd (bytes : List UInt8) (i : Nat) : Nat :=
  if (ascii? bytes i).any isSign then i + 1 else i

/-- Where the digits and the fraction end that start at `start`, and the number of their digits. -/
def fractionEnd (bytes : List UInt8) (start : Nat) : Nat × Nat :=
  let wholeEnd := digitsEnd bytes start
  if ascii? bytes wholeEnd = some '.' then
    let last := digitsEnd bytes (wholeEnd + 1)
    (last, (wholeEnd - start) + (last - (wholeEnd + 1)))
  else (wholeEnd, wholeEnd - start)

/-- Where an exponent ends that starts at `start`. Without a digit, there is none. -/
def exponentEnd (bytes : List UInt8) (start : Nat) : Nat :=
  if (ascii? bytes start).any isMark then
    let first := signEnd bytes (start + 1)
    let last := digitsEnd bytes first
    if first < last then last else start
  else start

/-- What a text starts with. -/
inductive Leading where
  | infinite (negative : Bool)
  | numeral (text : List Char)
  | noNumber
  | insideCharacter
deriving DecidableEq, Repr

/-- What the cursors find at the head of a text. -/
def leading (cs : List Char) : Leading :=
  let bytes := utf8 cs
  let start := signEnd bytes 0
  match cut? cs start with
  | none => .insideCharacter
  | some (_, unsigned) =>
    if infinityWord.isPrefixOf unsigned then .infinite (ascii? bytes 0 == some '-')
    else
      let (last, count) := fractionEnd bytes start
      if count = 0 then .noNumber
      else
        match cut? cs (exponentEnd bytes last) with
        | none => .insideCharacter
        | some (numeral, _) => .numeral numeral

/-- Why a text has no number at its head. -/
inductive Refusal where
  | noDigits
  | unreadable
deriving DecidableEq, Repr

/-- The number at the head of a text. There is no outcome when a cut falls into a character. -/
def read? (text : List Char) : Option (Except Refusal Double) :=
  match leading (text.dropWhile Text.isBlank) with
  | .infinite negative => some (.ok (.number (.infinite negative)))
  | .numeral numeral => some ((parseDouble? numeral).elim (.error .unreadable) .ok)
  | .noNumber => some (.error .noDigits)
  | .insideCharacter => none

end Cursor

end Wiring.Decimal
