/-
# Snapshots

A snapshot keeps what is to be remembered of a fragment in one step: where it
was, in which revision, how often its content had changed by then, and its
metadata. It refers to no file, so it outlives the step.

Key definitions: `Location`, `Snapshot`, `Snapshot.ofFragment`, `Snapshot.ofNumbers`,
`Snapshot.ofJson?`, `Snapshot.toJson`.
-/
import Lineage.Fragment

namespace Lineage

/-- One end of a location. -/
@[ext]
structure Corner where
  line : Int
  column : Int
  offset : Int
  one_le_line : 1 ≤ line
  one_le_column : 1 ≤ column
  offset_nonneg : 0 ≤ offset

instance : DecidableEq Corner := fun _ _ =>
  decidable_of_decidable_of_iff Corner.ext_iff.symm

/-- A stretch of text at a path, whatever the revision. -/
structure Location where
  path : String
  first : Corner
  last : Corner
  deriving DecidableEq

/-- What is remembered of a fragment in one step. -/
structure Snapshot where
  ordinal : Int
  revision : String
  locations : List Location
  changes : Int
  metadata : Json
  one_le_ordinal : 1 ≤ ordinal
  changes_nonneg : 0 ≤ changes
  locations_ne_nil : locations ≠ []

namespace Corner

/-- The place of a position. -/
def ofPosition (p : Position) : Corner :=
  ⟨p.line, p.column, p.offset, p.one_le_line, p.one_le_column, p.offset_nonneg⟩

/-- A corner from the fields of a record that start with a word. -/
def ofJson? (v : Json) (word : String) : Checked Corner :=
  let line := Record.field v s!"{word}_line" (Record.atLeast 1)
  let column := Record.field v s!"{word}_column" (Record.atLeast 1)
  let offset := Record.field v s!"{word}_offset" (Record.atLeast 0)
  (line.zip (column.zip offset)).map fun (⟨line, hl⟩, ⟨column, hc⟩, ⟨offset, ho⟩) =>
    ⟨line, column, offset, hl, hc, ho⟩

/-- The fields of a record for a corner, which start with a word. -/
def members (c : Corner) (word : String) : List (String × Json) :=
  [(s!"{word}_line", .int c.line), (s!"{word}_column", .int c.column),
    (s!"{word}_offset", .int c.offset)]

end Corner

namespace Location

/-- Where a range lies. -/
def ofRange (r : Range) : Location :=
  ⟨r.file.version.path, .ofPosition r.first, .ofPosition r.last⟩

/-- A location from the fields of its record. -/
def ofFields? (v : Json) : Checked Location :=
  let path := Record.field v "file" Record.text
  (path.zip ((Corner.ofJson? v "begin").zip (Corner.ofJson? v "end"))).map
    fun (path, first, last) => ⟨path, first, last⟩

/-- A location from its record. -/
def ofJson? (v : Json) : Checked Location :=
  Record.object "Location" ofFields? v

/-- The record of a location. -/
def toJson (l : Location) : Json :=
  .obj (("file", .str l.path) :: (l.first.members "begin" ++ l.last.members "end"))

end Location

namespace Snapshot

/-- The snapshot of a fragment in a step. -/
def ofFragment (f : Fragment) (ordinal changes : Int) : Except Fault Snapshot :=
  match hf : f.ranges with
  | [] => .error (.misuse (.withoutRanges f.text))
  | r :: rs =>
    if ho : 1 ≤ ordinal then
      if hc : 0 ≤ changes then
        .ok ⟨ordinal, r.file.version.revision, f.ranges.map Location.ofRange, changes, f.metadata,
          ho, hc, by simp [hf]⟩
      else .error (.misuse .changesBelowZero)
    else .error (.misuse .ordinalBelowOne)

/-- Whether a number is below `low`. -/
def isBelow (low : Rat) (v : Json) : Bool :=
  v.number?.any (· < low)

/-- The snapshot of a fragment, with numbers as a record gives them: they are
looked at as numbers first, then as whole numbers. -/
def ofNumbers (f : Fragment) (ordinal changes : Json) : Except Fault Snapshot :=
  if f.ranges.isEmpty then .error (.misuse (.withoutRanges f.text))
  else if isBelow 1 ordinal then .error (.misuse .ordinalBelowOne)
  else if isBelow 0 changes then .error (.misuse .changesBelowZero)
  else
    let ordinal := Checked.within (.field "ordinal") (Record.whole ordinal)
    let changes := Checked.within (.field "num_changes") (Record.whole changes)
    match ordinal.zip changes with
    | .error issues => .error (.invalid issues)
    | .ok (ordinal, changes) => ofFragment f ordinal changes

/-- A snapshot from its record. -/
def ofJson? (v : Json) : Checked Snapshot :=
  let ordinal := Record.field v "ordinal" (Record.atLeast 1)
  let revision := Record.field v "revision_id" Record.text
  let locations := Record.field v "locations" (Record.nonempty Location.ofJson?)
  let changes := Record.fieldOr v "num_changes" ⟨0, by omega⟩ (Record.atLeast 0)
  let metadata := Record.fieldOr v "metadata" .null .ok
  (ordinal.zip (revision.zip (locations.zip (changes.zip metadata)))).map
    fun (⟨ordinal, ho⟩, revision, ⟨locations, hl⟩, ⟨changes, hc⟩, metadata) =>
      ⟨ordinal, revision, locations, changes, metadata, ho, hc, hl⟩

/-- The record of a snapshot. -/
def toJson (s : Snapshot) : Json :=
  .obj [("ordinal", .int s.ordinal), ("revision_id", .str s.revision),
    ("locations", .arr (s.locations.map Location.toJson)), ("num_changes", .int s.changes),
    ("metadata", s.metadata)]

end Snapshot
end Lineage
