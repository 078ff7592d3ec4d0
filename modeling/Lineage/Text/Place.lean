/-
# Places in a text

A place names one character of a text four ways: by line and column, by its
offset in the text, and by its offset in the line. Lines and columns count
from one, offsets from zero, and line terminators have no place. There are two
ways in: `placeAt` looks up a line and a column, `placeOf` an offset. Both take
the lines of the text.

Key definitions: `Place`, `placeAt`, `placeOf`, `lastOffset`.
-/
import Lineage.Text.Column

namespace Lineage.Text

/-- Where a character stands in a text. -/
@[ext]
structure Place where
  line : Int
  column : Int
  offset : Int
  lineOffset : Int
  one_le_line : 1 ≤ line
  one_le_column : 1 ≤ column
  offset_nonneg : 0 ≤ offset
  lineOffset_nonneg : 0 ≤ lineOffset

instance : DecidableEq Place := fun _ _ =>
  decidable_of_decidable_of_iff Place.ext_iff.symm

/-- The offset in its line of the character in column `target`, where the text
given starts in column `column`. There is none if the line ends first, or if
the column lies inside a tab. -/
def offsetInLine (tab target : Int) : Int → List Char → Option Nat
  | _, [] => none
  | column, c :: rest =>
    if isTerminator c ∨ target < column then none
    else if column = target then some 0
    else (offsetInLine tab target (nextColumn tab column c) rest).map (· + 1)

/-- The place in a given line and column. -/
def placeAt (tab : Int) (lines : List Line) (line column : Int) : Option Place :=
  if h : 1 ≤ line ∧ 1 ≤ column then do
    let text ← lines[(line - 1).toNat]?
    let i ← offsetInLine tab column 1 text
    let start := lineStart lines (line - 1).toNat
    some ⟨line, column, start + i, i, h.1, h.2, by omega, by omega⟩
  else none

/-- What stands at an offset: how many lines come before the line it is in, the
text before it in that line, and the character itself. -/
structure Spot where
  linesBefore : Nat
  before : List Char
  char : Char
  deriving DecidableEq

/-- The spot at an offset into the lines of a text. -/
def spotAt : List Line → Nat → Option Spot
  | [], _ => none
  | first :: others, offset =>
    match first[offset]? with
    | some c => some ⟨0, first.take offset, c⟩
    | none =>
      (spotAt others (offset - first.length)).map fun s =>
        { s with linesBefore := s.linesBefore + 1 }

/-- The place of the character at a given offset. -/
def placeOf (tab : Int) (lines : List Line) (offset : Int) : Option Place :=
  if h : 0 ≤ offset ∧ 1 ≤ tab then do
    let s ← spotAt lines offset.toNat
    if isTerminator s.char then none
    else some ⟨s.linesBefore + 1, columnOf tab s.before, offset, s.before.length,
      by omega, one_le_columnOf h.2 s.before, h.1, by omega⟩
  else none

/-- The offset of the last character of a line that does not end it. An empty
line has none. -/
def lastOffset (lines : List Line) (line : Int) : Option Int :=
  if 1 ≤ line then
    match lines[(line - 1).toNat]? with
    | none => none
    | some text =>
      match (stripEnd text).length with
      | 0 => none
      | n + 1 => some (lineStart lines (line - 1).toNat + n)
  else none

end Lineage.Text
