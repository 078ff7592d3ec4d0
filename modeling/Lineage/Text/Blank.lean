/-
# Blank characters

A character is blank if it separates words without a mark of its own: the
spaces and separators of Unicode, the control characters that move the print
position, and the four information separators.

Key definitions: `blankRanges`, `isBlank`, `trim`.
-/
namespace Lineage.Text

/-- The blank characters, as inclusive ranges of code points. -/
def blankRanges : List (Nat × Nat) :=
  [(0x0009, 0x000D), (0x001C, 0x0020), (0x0085, 0x0085), (0x00A0, 0x00A0), (0x1680, 0x1680),
   (0x2000, 0x200A), (0x2028, 0x2029), (0x202F, 0x202F), (0x205F, 0x205F), (0x3000, 0x3000)]

/-- Whether a character is blank. -/
def isBlank (c : Char) : Bool :=
  blankRanges.any fun r => r.1 ≤ c.toNat && c.toNat ≤ r.2

/-- Whether a text holds blank characters only. -/
def isBlankText (text : String) : Bool :=
  text.toList.all isBlank

/-- A text without what satisfies `p` at its two ends. -/
def trim (p : Char → Bool) (text : List Char) : List Char :=
  ((text.dropWhile p).reverse.dropWhile p).reverse

end Lineage.Text
