/-
# Translation

A position in the old file of a change is translated to its new file line by
line: the line moves with the layout changes before it, and the column stays if
the line has the same text on both sides and becomes the first one otherwise.
Positions in deleted lines, and in lines that have become empty, have no
translation.

A range is translated end by end. Where that fails, its lines are estimated from
the lines that the diff deletes, and the range then takes whole lines.

Key definitions: `Position.apply`, `Range.apply`, `estimateLines`, `Range.translate`.
-/
import Lineage.Change.Basic
import Lineage.Layout
import Lineage.Range

namespace Lineage

namespace Position

/-- The column in a new line of a position in an old line. -/
def columnIn (p : Position) (oldLine newLine : List Char) : Int :=
  if oldLine = newLine then p.column else 1

/-- The position that a position becomes in the new file of a layout. -/
def applyLayout (p : Position) (old new : File) (layout : Layout) : Work (Option Position) := do
  if layout.deletes p.line then pure none
  else
    let line := layout.mapLine p.line
    let newLines ← new.lines
    if line < 1 then pure none
    else
      match newLines[(line - 1).toNat]? with
      | none => pure none
      | some [] => pure none
      | some newLine =>
        match (← old.lines)[(p.line - 1).toNat]? with
        | none => throw .lineOutOfRange
        | some oldLine =>
          let column := p.columnIn oldLine newLine
          match ← new.positionAt line column p.tabSize with
          | some q => pure (some q)
          | none => throw (.inconsistent (.unresolved line column))

/-- The position that a position becomes by a change of its file. -/
def apply (p : Position) (c : Change) : Work (Option Position) :=
  match c.old with
  | none => throw (.misuse .changeWithoutOld)
  | some old =>
    if old.version ≠ p.file.version then throw (.misuse (.changeOfOther old.name))
    else
      match c.new with
      | none => pure none
      | some new => do p.applyLayout old new (Layout.ofDiff (← c.diff))

end Position

/-- The lines that a range is estimated to become, from the lines that are
deleted and the number of new lines. They may lie outside the new text. A single
deleted line goes to the first line, if the new text reaches that far at all; two
adjacent deleted lines move up by one; of more, the range shrinks by a line at
both ends. If only the last line is deleted the range begins one line later, and
otherwise it ends one line earlier. -/
def estimateLines (first last : Int) (deleted : List Int) (count : Int) : Option (Int × Int) :=
  if last ∈ deleted then
    if first ∈ deleted then
      if first = last then if count < first then none else some (1, 1)
      else if last - first = 1 then some (first - 1, last - 1)
      else some (first + 1, last - 1)
    else some (first + 1, last)
  else some (first, last - 1)

namespace Range

/-- The range between the translations of the ends. -/
def apply (r : Range) (c : Change) : Work (Option Range) := do
  let first ← r.first.apply c
  let last ← r.last.apply c
  match first, last with
  | some first, some last =>
    if first.offset ≤ last.offset then
      match ofPositions? first last with
      | .ok moved => pure (some moved)
      | .error issues => throw (.invalid issues)
    else pure none
  | _, _ => pure none

/-- The range of whole lines of a file. -/
def ofLines (file : File) (first last tab : Int) : Work (Option Range) := do
  let begin? ← file.positionAt first 1 tab
  let end? ← file.endOfLine last tab
  match begin?, end? with
  | some p, some q =>
    if p.offset ≤ q.offset then
      match ofPositions? p q with
      | .ok r => pure (some r)
      | .error issues => throw (.invalid issues)
    else do
      Work.note (.linesUnresolved first last file.name)
      pure none
  | _, _ => do
    Work.note (.linesUnresolved first last file.name)
    pure none

/-- The range of the lines that a range is estimated to become. -/
def estimate (r : Range) (new : File) (diff : List LineChange) : Work (Option Range) := do
  let deleted := (diff.filter LineChange.isDelete).map LineChange.line
  let count := (← new.fullLines).length
  match estimateLines r.first.line r.last.line deleted count with
  | none =>
    Work.note (.lineGone r.text r.first.line)
    pure none
  | some (first, last) =>
    if first < 1 ∨ last < 1 then pure none else ofLines new first last r.first.tabSize

/-- The range that a range becomes by a change of its file. -/
def translate (r : Range) (c : Change) : Work (Option Range) := do
  match ← r.apply c with
  | some moved => pure (some moved)
  | none =>
    match c.new with
    | none => pure none
    | some new => r.estimate new (← c.diff)

end Range
end Lineage
