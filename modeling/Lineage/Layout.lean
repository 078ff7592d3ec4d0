/-
# Layout changes

A deletion and an insertion at the same place change a line and leave the layout
of the text as it is. Only the deletions and insertions that are left when all
pairs are set aside move lines up or down. Deletions are numbered in the old text
and insertions in the new one, so places are compared after adding what has been
left over on the other side so far.

Key definitions: `Layout`, `Layout.pair`, `Layout.ofDiff`, `Layout.mapLine`.
-/
import Lineage.LineChange

namespace Lineage

/-- The line changes that move lines. -/
structure Layout where
  deletions : List LineChange
  insertions : List LineChange
  deriving DecidableEq

namespace Layout

/-- Sets pairs aside, where `deleted` deletions and `inserted` insertions have
been left over before. -/
def pair (deletions insertions : List LineChange) (deleted inserted : Int) : Layout :=
  match deletions, insertions with
  | [], insertions => ⟨[], insertions⟩
  | deletions, [] => ⟨deletions, []⟩
  | d :: ds, i :: is =>
    if d.line + inserted = i.line + deleted then pair ds is deleted inserted
    else if d.line + inserted < i.line + deleted then
      let rest := pair ds (i :: is) (deleted + 1) inserted
      { rest with deletions := d :: rest.deletions }
    else
      let rest := pair (d :: ds) is deleted (inserted + 1)
      { rest with insertions := i :: rest.insertions }
termination_by deletions.length + insertions.length

/-- Line changes in the order of their lines. -/
def byLine (changes : List LineChange) : List LineChange :=
  changes.mergeSort fun c d => c.line ≤ d.line

/-- The line changes of a diff that move lines. -/
def ofDiff (diff : List LineChange) : Layout :=
  pair (byLine (diff.filter LineChange.isDelete)) (byLine (diff.filter LineChange.isInsert)) 0 0

/-- How many deletions and insertions concern an old line, among changes in the
order of their lines: the deletions up to the line, and the insertions that come
no later than the line when moved by what has been counted before them. -/
def concerning (line deleted inserted : Int) : List LineChange → Int × Int
  | [] => (deleted, inserted)
  | c :: cs =>
    if c.isDelete then
      if c.line ≤ line then concerning line (deleted + 1) inserted cs
      else concerning line deleted inserted cs
    else if c.line + deleted - inserted ≤ line then concerning line deleted (inserted + 1) cs
    else concerning line deleted inserted cs

/-- The new line that an old line becomes, if it is not deleted. -/
def mapLine (layout : Layout) (line : Int) : Int :=
  let (deleted, inserted) :=
    concerning line 0 0 (byLine (layout.deletions ++ layout.insertions))
  line - deleted + inserted

/-- Whether an old line is deleted without a line in its place. -/
def deletes (layout : Layout) (line : Int) : Bool :=
  layout.deletions.any fun d => d.line == line

end Layout
end Lineage
