import Wiring.Decimal.Stepwise
import Wiring.Binary64.Shortest
import Wiring.Json.Basic

/-!
# Tokens of JSON text

The reader and the printer of JSON meet at tokens: brackets, separators, strings and bare words.

- `Token.text`: the compact text of a token. Strings escape the quote, the backslash and the
  characters below U+0020, and nothing else.
- `Token.scan`: the tokens of a text, if every string and every word in it is well formed. The
  scanner takes one character at a time; between two characters it remembers a `Mode`.
- `Token.number?`: a word that is a number. Without fraction and exponent it is an integer as long as
  it fits 64 bits, signed or not, and is not `-0`; all other numbers are doubles, computed in double
  precision, and one that comes out beyond the largest double is infinite.
- `Token.ofUnits`: a string is escaped by 16-bit units, and two surrogates make up one character. A
  string with a surrogate that has no partner is well formed, but has no text (`Token.brokenStr`).
-/

namespace Wiring

/-- A piece of JSON text: a bracket, a separator, or a value without parts. -/
inductive Token where
  | openArray
  | closeArray
  | openObject
  | closeObject
  | comma
  | colon
  | null
  | bool (b : Bool)
  | int (n : Int)
  | float (x : Binary64)
  | str (s : String)
  /-- A string with an unpaired surrogate. -/
  | brokenStr
deriving DecidableEq, Repr

namespace Token

/-! ## Writing -/

/-- A character of a string, as it is written between quotes. -/
def escape (c : Char) : List Char :=
  if c = '"' then ['\\', '"']
  else if c = '\\' then ['\\', '\\']
  else if c = '\x08' then ['\\', 'b']
  else if c = '\x0c' then ['\\', 'f']
  else if c = '\n' then ['\\', 'n']
  else if c = '\r' then ['\\', 'r']
  else if c = '\t' then ['\\', 't']
  else if c.toNat < 0x20 then
    ['\\', 'u', '0', '0', Nat.digitChar (c.toNat / 16), Nat.digitChar (c.toNat % 16)]
  else [c]

/-- The text of a double: positional from `0.00001` up to sixteen digits before the point. -/
def floatLayout : Binary64.Layout := ⟨-5, 16⟩

/-- The compact text of a token. There is no text for an infinite number, and `null` stands in; a
single surrogate stands in for all broken strings. -/
def text : Token → List Char
  | .openArray => ['[']
  | .closeArray => [']']
  | .openObject => ['{']
  | .closeObject => ['}']
  | .comma => [',']
  | .colon => [':']
  | .null => ['n', 'u', 'l', 'l']
  | .bool true => ['t', 'r', 'u', 'e']
  | .bool false => ['f', 'a', 'l', 's', 'e']
  | .int n => (toString n).toList
  | .float x => if x.isFinite then x.text floatLayout else ['n', 'u', 'l', 'l']
  | .str s => '"' :: (s.toList.flatMap escape ++ ['"'])
  | .brokenStr => ['"', '\\', 'u', 'd', '8', '0', '0', '"']

/-- `10 ^ 15` is the last power of ten without an exponent. -/
example : String.ofList (text (.float (.ofDecimal false 1 15))) = "1000000000000000.0" := by
  decide +kernel

example : String.ofList (text (.float (.ofDecimal false 1 16))) = "1e+16" := by decide +kernel

/-- `10 ^ -5` is the first. -/
example : String.ofList (text (.float (.ofDecimal false 1 (-5)))) = "0.00001" := by decide +kernel

example : String.ofList (text (.float (.ofDecimal true 15 (-8)))) = "-1.5e-7" := by decide +kernel

/-- Zero keeps its sign. -/
example : String.ofList (text (.float (.ofDecimal true 0 7))) = "-0.0" := by decide +kernel

/-! ## Words -/

/-- Integers that a text may hold: those of 64 bits, signed or unsigned. -/
def fitsInteger (n : Int) : Bool := -0x8000000000000000 ≤ n && n < 0x10000000000000000

/-- A word that is a number. Digits are required on both sides of a point, and a leading zero stands
alone. -/
def number? (word : List Char) : Option Token :=
  let (n, rest) := Decimal.Numeral.scan word
  let leading := n.whole.length = 1 ∨ n.whole.head? ≠ some '0'
  if rest ≠ [] ∨ n.sign = some '+' ∨ n.whole = [] ∨ ¬leading ∨ n.fraction = some [] then none
  else
    let value : Int := if n.negative then -(n.significand : Int) else n.significand
    if n.fraction = none ∧ n.exponent = none ∧ fitsInteger value ∧ ¬(n.negative ∧ value = 0) then
      some (.int value)
    else some (.float n.stepwise)

/-- The token of a bare word. -/
def ofWord? (word : List Char) : Option Token :=
  if word = ['n', 'u', 'l', 'l'] then some .null
  else if word = ['t', 'r', 'u', 'e'] then some (.bool true)
  else if word = ['f', 'a', 'l', 's', 'e'] then some (.bool false)
  else number? word

/-! ## Scanning -/

/-- The white space of JSON, which is narrower than that of Unicode. -/
def isSpace (c : Char) : Bool := c = ' ' || c = '\t' || c = '\n' || c = '\r'

/-- The tokens of one character. -/
def punctuation? (c : Char) : Option Token :=
  if c = '[' then some .openArray
  else if c = ']' then some .closeArray
  else if c = '{' then some .openObject
  else if c = '}' then some .closeObject
  else if c = ',' then some .comma
  else if c = ':' then some .colon
  else none

/-- Whether a character ends a bare word. -/
def endsWord (c : Char) : Bool := isSpace c || (punctuation? c).isSome || c = '"'

/-- What the scanner is in the middle of. What has been read of a word or a string is kept latest
first, a string as code points and surrogates. -/
inductive Mode where
  | between
  | word (read : List Char)
  | string (units : List Nat)
  /-- After a backslash. -/
  | escaped (units : List Nat)
  /-- Inside a `\u` escape: the number of hexadecimal digits to come, and the value of those read. -/
  | code (units : List Nat) (due : Nat) (value : Nat)
deriving DecidableEq, Repr

/-- The value of a hexadecimal digit, in either case. -/
def hexDigit? (c : Char) : Option Nat :=
  if '0' ≤ c ∧ c ≤ '9' then some (c.toNat - '0'.toNat)
  else if 'a' ≤ c ∧ c ≤ 'f' then some (c.toNat - 'a'.toNat + 10)
  else if 'A' ≤ c ∧ c ≤ 'F' then some (c.toNat - 'A'.toNat + 10)
  else none

/-- The character of a one-letter escape. -/
def unescape? (c : Char) : Option Char :=
  if c = '"' ∨ c = '\\' ∨ c = '/' then some c
  else if c = 'b' then some '\x08'
  else if c = 'f' then some '\x0c'
  else if c = 'n' then some '\n'
  else if c = 'r' then some '\r'
  else if c = 't' then some '\t'
  else none

/-- Whether a 16-bit unit begins a pair. -/
def isHighSurrogate (n : Nat) : Bool := 0xD800 ≤ n && n ≤ 0xDBFF

/-- Whether a 16-bit unit ends a pair. -/
def isLowSurrogate (n : Nat) : Bool := 0xDC00 ≤ n && n ≤ 0xDFFF

/-- The character that two surrogates make up. -/
def combine (high low : Nat) : Char :=
  Char.ofNat (0x10000 + (high - 0xD800) * 0x400 + (low - 0xDC00))

/-- The characters of a string, given its units latest first, followed by those of `after`. Every
surrogate must have its partner next to it. -/
def characters? (units : List Nat) (after : List Char) : Option (List Char) :=
  match units with
  | [] => some after
  | low :: rest =>
    if isLowSurrogate low then
      match rest with
      | high :: rest =>
        if isHighSurrogate high then characters? rest (combine high low :: after) else none
      | [] => none
    else if isHighSurrogate low then none
    else characters? rest (Char.ofNat low :: after)

/-- The token of a string, given its units latest first. -/
def ofUnits (units : List Nat) : Token :=
  match characters? units [] with
  | some cs => .str (String.ofList cs)
  | none => .brokenStr

/-- The mode after a character that no word or string is in the middle of, and its token. -/
def Mode.start (c : Char) : Mode × List Token :=
  if isSpace c then (.between, [])
  else match punctuation? c with
    | some t => (.between, [t])
    | none => if c = '"' then (.string [], []) else (.word [c], [])

/-- One character: the next mode, and the tokens that end here. -/
def Mode.step : Mode → Char → Option (Mode × List Token)
  | .between, c => some (Mode.start c)
  | .word read, c =>
    if endsWord c then do
      let t ← ofWord? read.reverse
      -- The character that ends the word is looked at once more.
      let (mode, ts) := Mode.start c
      some (mode, t :: ts)
    else some (.word (c :: read), [])
  | .string units, c =>
    if c = '"' then some (.between, [ofUnits units])
    else if c = '\\' then some (.escaped units, [])
    else if c.toNat < 0x20 then none
    else some (.string (c.toNat :: units), [])
  | .escaped units, c =>
    if c = 'u' then some (.code units 4 0, [])
    else (unescape? c).map fun x => (.string (x.toNat :: units), [])
  | .code units due value, c => do
    let d ← hexDigit? c
    let value := 16 * value + d
    some (if due ≤ 1 then .string (value :: units) else .code units (due - 1) value, [])

/-- The tokens that end with the text. Inside a string the text may not end. -/
def Mode.finish : Mode → Option (List Token)
  | .between => some []
  | .word read => (ofWord? read.reverse).map ([·])
  | _ => none

/-- The tokens of the rest of a text. -/
def Mode.scan (mode : Mode) : List Char → Option (List Token)
  | [] => mode.finish
  | c :: cs => do
    let (mode, now) ← mode.step c
    let later ← mode.scan cs
    some (now ++ later)

/-- The tokens of a text. -/
def scan (cs : List Char) : Option (List Token) := Mode.between.scan cs

end Token

end Wiring
