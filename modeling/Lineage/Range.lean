/-
# Ranges

A range is a stretch of text in one version of a file, from its first to its
last character. Ranges that overlap or touch can be merged; the length of a
list of ranges is the number of offsets that lie in at least one of them.

Key definitions: `Range`, `Range.ofPositions?`, `Range.merge`, `Range.unionLength`, `Span`.
-/
import Lineage.Position

namespace Lineage

/-- A stretch of text, both ends included. -/
structure Range where
  first : Position
  last : Position
  sameVersion : first.file.version = last.file.version
  first_le_last : first.offset ≤ last.offset

/-- Where a range lies, whatever the revision: a path and two offsets. -/
structure Span where
  path : String
  first : Int
  last : Int
  deriving DecidableEq, Repr

namespace Range

/-- The range between two positions. -/
def ofPositions? (first last : Position) : Checked Range :=
  if h : first.file.version = last.file.version then
    if h' : first.offset ≤ last.offset then .ok ⟨first, last, h, h'⟩
    else Record.fail .reversed
  else Record.fail .differentFiles

/-- The file that a range lies in. -/
def file (r : Range) : File :=
  r.first.file

/-- Where a range lies. -/
def span (r : Range) : Span :=
  ⟨r.file.version.path, r.first.offset, r.last.offset⟩

/-- A range in messages. -/
def text (r : Range) : String :=
  s!"Range(begin={r.first.text}, end={r.last.text})"

/-- The number of characters in a range. -/
def length (r : Range) : Int :=
  r.last.offset + 1 - r.first.offset

/-- The text from one offset up to another one, that one included. -/
def slice (text : List Char) (first last : Int) : List Char :=
  (text.take (last + 1).toNat).drop first.toNat

/-- The text in a range. -/
def content (r : Range) : Work (List Char) := do
  pure (slice (← r.file.text) r.first.offset r.last.offset)

/-- Two ranges as one, where the first begins no later than the second; none if
a character lies between them. -/
def join (upper lower : Range) (h : upper.file.version = lower.file.version)
    (h' : upper.first.offset ≤ lower.first.offset) : Option Range :=
  if upper.last.offset + 1 < lower.first.offset then none
  else if lower.last.offset ≤ upper.last.offset then some upper
  else
    some ⟨upper.first, lower.last, h.trans lower.sameVersion, by
      have := lower.first_le_last
      omega⟩

/-- Two ranges of one version as one; none if a character lies between them. -/
def merge (r s : Range) : Except Fault (Option Range) :=
  if h : r.file.version = s.file.version then
    if h' : r.first.offset < s.first.offset then .ok (join r s h (by omega))
    else .ok (join s r h.symm (by omega))
  else .error (.misuse (.unmergeable r.file.name s.file.name))

/-- Ranges in the order in which they begin. -/
def sorted (rs : List Range) : List Range :=
  rs.mergeSort fun r s => r.first.offset ≤ s.first.offset

/-- The number of offsets in ranges that come in the order in which they begin:
each range is merged with the next one as long as they meet. -/
def sweep : List Range → Except Fault Int
  | [] => .ok 0
  | [r] => .ok r.length
  | r :: s :: rest =>
    match r.merge s with
    | .error fault => .error fault
    | .ok (some merged) => sweep (merged :: rest)
    | .ok none => (sweep (s :: rest)).map (r.length + ·)
termination_by rs => rs.length

/-- The number of offsets that lie in at least one range of a list, in which ranges may be
missing. -/
def unionLength (rs : List (Option Range)) : Except Fault Int :=
  sweep (sorted (rs.filterMap id))

/-- The range between the same lines and columns of another file. -/
def mapTo (r : Range) (file : File) : Work (Option Range) := do
  let first ← r.first.mapTo file
  let last ← r.last.mapTo file
  match first, last with
  | some first, some last => pure (ofPositions? first last).toOption
  | _, _ => pure none

end Range
end Lineage
