/-
# Lifespans

A lifespan is the history of one fragment, as the list of its snapshots. It is
never empty and only grows at its end, where neither the ordinal nor the number
of changes may decrease.

Key definitions: `Lifespan`, `Lifespan.requireNext`, `Lifespan.add`, `Lifespan.table`.
-/
import Lineage.Csv
import Lineage.Json.Printer
import Lineage.Snapshot

namespace Lineage

/-- The snapshots of one fragment, in order. -/
structure Lifespan where
  first : Snapshot
  later : List Snapshot

namespace Lifespan

/-- A lifespan that begins with a snapshot. -/
def start (s : Snapshot) : Lifespan :=
  ⟨s, []⟩

/-- All snapshots. -/
def snapshots (l : Lifespan) : List Snapshot :=
  l.first :: l.later

/-- The last snapshot. -/
def last (l : Lifespan) : Snapshot :=
  l.later.getLast?.getD l.first

/-- The number of changes so far. -/
def changes (l : Lifespan) : Int :=
  l.last.changes

/-- Fails unless a snapshot may come next. -/
def requireNext (l : Lifespan) (s : Snapshot) : Except Fault Unit :=
  if s.ordinal < l.last.ordinal then
    .error (.inconsistent (.ordinalDecreases s.ordinal l.last.ordinal))
  else if s.changes < l.last.changes then
    .error (.inconsistent (.changesDecrease s.changes l.last.changes))
  else .ok ()

/-- A lifespan with one more snapshot. -/
def add (l : Lifespan) (s : Snapshot) : Except Fault Lifespan := do
  l.requireNext s
  return { l with later := l.later ++ [s] }

/-- Whether the content changed with the last snapshot. -/
def isChanged (l : Lifespan) : Bool :=
  match l.snapshots.reverse with
  | s :: previous :: _ => previous.changes < s.changes
  | _ => false

/-- A lifespan in messages. -/
def text (l : Lifespan) : String :=
  s!"Lifespan(entities={l.snapshots.length}, num_changes={l.changes})"

/-- The record of a lifespan. -/
def toJson (l : Lifespan) : Json :=
  .obj [("num_changes", .int l.changes), ("entities", .arr (l.snapshots.map Snapshot.toJson))]

/-! ### As a table -/

/-- Fields of a table are set apart by semicolons. -/
def delimiter : Char := ';'

/-- The first row of a table. -/
def header : List String :=
  ["ordinal", "revision", "changed", "num_changes", "metadata", "locations"]

/-- The row of a snapshot, given whether the content changed with it. -/
def row (changed : Bool) (s : Snapshot) : List (List Char) :=
  [Text.decimal s.ordinal, s.revision.toList, (Json.bool changed).print .closed,
    Text.decimal s.changes, s.metadata.print .closed,
    (Json.arr (s.locations.map Location.toJson)).print .closed]

/-- The rows of snapshots that follow one with a number of changes. -/
def rowsAfter (changes : Int) : List Snapshot → List (List (List Char))
  | [] => []
  | s :: rest => row (changes < s.changes) s :: rowsAfter s.changes rest

/-- The rows of the snapshots of a lifespan. -/
def snapshotRows (l : Lifespan) : List (List (List Char)) :=
  row false l.first :: rowsAfter l.first.changes l.later

/-- The rows of a lifespan: the header, and one for each snapshot. -/
def rows (l : Lifespan) : List (List (List Char)) :=
  header.map String.toList :: l.snapshotRows

/-- A lifespan as the text of a table. -/
def table (l : Lifespan) : List Char :=
  Csv.table delimiter l.rows

end Lifespan
end Lineage
