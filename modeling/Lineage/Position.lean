/-
# Positions

A position is a place in a file of a revision, found with a certain tab size.
Positions are looked up in a file by line and column or by offset; a look-up
that finds no character is an answer, not a fault. Positions of one version are
ordered by their offsets.

Key definitions: `Position`, `File.positionAt`, `File.positionOf`, `File.endOfLine`,
`Position.compare`.
-/
import Lineage.File
import Lineage.Text.Place

namespace Lineage

/-- A place in a file. -/
structure Position extends Text.Place where
  file : File
  tabSize : Int
  one_le_tabSize : 1 ≤ tabSize

/-- The tab size of a look-up that does not say. -/
def defaultTabSize : Int := 4

namespace File

/-- The position in a line and a column. -/
def positionAt (f : File) (line column tab : Int) : Work (Option Position) := do
  Work.require (1 ≤ line) .lineBelowOne
  Work.require (1 ≤ column) .columnBelowOne
  if h : 1 ≤ tab then
    let lines ← f.fullLines
    pure ((Text.placeAt tab lines line column).map fun place => ⟨place, f, tab, h⟩)
  else throw (.misuse .tabBelowOne)

/-- The position at an offset. -/
def positionOf (f : File) (offset tab : Int) : Work (Option Position) := do
  Work.require (0 ≤ offset) .offsetBelowZero
  if h : 1 ≤ tab then
    let lines ← f.fullLines
    pure ((Text.placeOf tab lines offset).map fun place => ⟨place, f, tab, h⟩)
  else throw (.misuse .tabBelowOne)

/-- The position of the last character of a line that does not end it. -/
def endOfLine (f : File) (line tab : Int) : Work (Option Position) := do
  Work.require (1 ≤ line) .lineBelowOne
  match Text.lastOffset (← f.fullLines) line with
  | some offset => f.positionOf offset tab
  | none => pure none

end File

namespace Position

/-- A position from its record, which names everything but the file. -/
def ofJson? (file : File) (v : Json) : Checked Position :=
  let line := Record.field v "line" (Record.atLeast 1)
  let column := Record.field v "column" (Record.atLeast 1)
  let offset := Record.field v "offset" (Record.atLeast 0)
  let lineOffset := Record.field v "line_offset" (Record.atLeast 0)
  let tabSize := Record.field v "tab_size" (Record.atLeast 1)
  (line.zip (column.zip (offset.zip (lineOffset.zip tabSize)))).map
    fun (⟨line, hl⟩, ⟨column, hc⟩, ⟨offset, ho⟩, ⟨lineOffset, hlo⟩, ⟨tabSize, ht⟩) =>
      ⟨⟨line, column, offset, lineOffset, hl, hc, ho, hlo⟩, file, tabSize, ht⟩

/-- A position in messages. -/
def text (p : Position) : String :=
  s!"Position(file={p.file.name}, line={p.line}, column={p.column}, offset={p.offset}, " ++
    s!"line_offset={p.lineOffset}, tab_size={p.tabSize})"

/-- Whether two positions are in the same version of a file. -/
def SameVersion (p q : Position) : Prop :=
  p.file.version = q.file.version

instance (p q : Position) : Decidable (p.SameVersion q) :=
  inferInstanceAs (Decidable (p.file.version = q.file.version))

/-- Whether two positions agree in everything. Files count by their version. -/
def same (p q : Position) : Bool :=
  p.toPlace == q.toPlace && p.file.version == q.file.version && p.tabSize == q.tabSize

/-- How far a position lies behind another one of the same version. -/
def compare (p : Position) (other : Option Position) : Except Fault Int :=
  match other with
  | none => .error (.misuse (.incomparable p.file.name none))
  | some q =>
    if p.SameVersion q then .ok (p.offset - q.offset)
    else .error (.misuse (.incomparable p.file.name (some q.file.name)))

/-! ### From position to position -/

/-- The first position of the next line; none from the last line. -/
def nextLine (p : Position) : Work (Option Position) := do
  let count : Int := (← p.file.fullLines).length
  if count < p.line then throw (.inconsistent (.beyondEnd p.text))
  else if count = p.line then pure none
  else p.file.positionAt (p.line + 1) 1 p.tabSize

/-- The first position of the line before; none from the first line. -/
def previousLine (p : Position) : Work (Option Position) :=
  if p.line = 1 then pure none else p.file.positionAt (p.line - 1) 1 p.tabSize

/-- The first position of the line. -/
def beginOfLine (p : Position) : Work Position := do
  match ← p.file.positionAt p.line 1 p.tabSize with
  | some q => pure q
  | none => throw (.inconsistent (.noBeginOfLine p.line))

/-- The last position of the line. -/
def endOfLine (p : Position) : Work Position := do
  match ← p.file.endOfLine p.line p.tabSize with
  | some q => pure q
  | none => throw (.inconsistent (.noEndOfLine p.line))

/-- The position in the same line and column of another file. -/
def mapTo (p : Position) (file : File) : Work (Option Position) :=
  file.positionAt p.line p.column p.tabSize

/-- The character at a position. -/
def char (p : Position) : Work Char := do
  match (← p.file.text)[p.offset.toNat]? with
  | some c => pure c
  | none => throw .offsetOutOfRange

end Position
end Lineage
