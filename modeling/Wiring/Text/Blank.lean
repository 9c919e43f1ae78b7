/-!
# White space

The characters of the Unicode property `White_Space`: twenty-five code points, in ten runs.
`Char.isWhitespace` knows four of them, all ASCII.
-/

namespace Wiring.Text

/-- The first and last code point of each run of white space, in ascending order. -/
def blankRanges : List (Nat × Nat) :=
  [(0x9, 0xD), (0x20, 0x20), (0x85, 0x85), (0xA0, 0xA0), (0x1680, 0x1680), (0x2000, 0x200A),
    (0x2028, 0x2029), (0x202F, 0x202F), (0x205F, 0x205F), (0x3000, 0x3000)]

/-- Whether a character has the property `White_Space`. -/
def isBlank (c : Char) : Bool :=
  blankRanges.any fun (first, last) => first ≤ c.toNat && c.toNat ≤ last

end Wiring.Text
