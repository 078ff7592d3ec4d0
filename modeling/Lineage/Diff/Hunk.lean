/-
# Hunks

What two texts do not have in common lies in hunks: a stretch of the old lines
that gives way to a stretch of the new lines, one of the two possibly empty. The
hunks are the gaps between the matching blocks. A diff lists the line changes
hunk by hunk, deletions before insertions.

Key definitions: `Hunk`, `Hunk.between`, `Hunk.changes`, `lineDiff`.
-/
import Lineage.Diff.Table
import Lineage.LineChange

namespace Lineage

/-- Old lines `[oldStart, oldStop)` give way to new lines `[newStart, newStop)`,
counted from zero. -/
structure Hunk where
  oldStart : Nat
  oldStop : Nat
  newStart : Nat
  newStop : Nat
  deriving DecidableEq, Repr

namespace Hunk

/-- The hunk between two places, if there is anything between them. -/
def gap (i i' j j' : Nat) : List Hunk :=
  if i < i' ∨ j < j' then [⟨i, i', j, j'⟩] else []

/-- The gaps that blocks leave from line `i` of the old and line `j` of the new
text on. -/
def gaps (oldLength newLength : Nat) : Nat → Nat → List Block → List Hunk
  | i, j, [] => gap i oldLength j newLength
  | i, j, b :: bs =>
    gap i b.old j b.new ++ gaps oldLength newLength (b.old + b.size) (b.new + b.size) bs

/-- The hunks between two lists of lines. -/
def between (old new : List (List Char)) : List Hunk :=
  gaps old.length new.length 0 0 (Block.find old new)

/-- Line changes of one kind, for lines that follow the first `k` ones. -/
def numbered (kind : LineChange.Kind) : Nat → List (List Char) → List LineChange
  | _, [] => []
  | k, line :: lines => ⟨kind, k + 1, line, by omega⟩ :: numbered kind (k + 1) lines

/-- The line changes of a hunk. -/
def changes (old new : List (List Char)) (h : Hunk) : List LineChange :=
  numbered .delete h.oldStart ((old.take h.oldStop).drop h.oldStart) ++
    numbered .insert h.newStart ((new.take h.newStop).drop h.newStart)

end Hunk

/-- The line changes that lead from the old lines to the new ones. -/
def lineDiff (old new : List (List Char)) : List LineChange :=
  (Hunk.between old new).flatMap (Hunk.changes old new)

end Lineage
