/-!
# Blank characters

The blank characters are those of the Unicode property `White_Space` together with the four
information separators U+001C to U+001F. `strip` removes them from both ends of a text.
-/

namespace BlockCalculus.Text

/-- The ranges of blank code points, ends included. -/
def blankRanges : List (Nat × Nat) :=
  [(0x9, 0xD), (0x1C, 0x20), (0x85, 0x85), (0xA0, 0xA0), (0x1680, 0x1680), (0x2000, 0x200A),
   (0x2028, 0x2029), (0x202F, 0x202F), (0x205F, 0x205F), (0x3000, 0x3000)]

/-- Whether a character is blank. -/
def isBlank (c : Char) : Bool :=
  blankRanges.any fun r => r.1 ≤ c.toNat && c.toNat ≤ r.2

/-- The text without blanks at its start. -/
def stripStart (cs : List Char) : List Char :=
  cs.dropWhile isBlank

/-- The text without blanks at either end. -/
def strip (cs : List Char) : List Char :=
  (stripStart (stripStart cs).reverse).reverse

end BlockCalculus.Text
