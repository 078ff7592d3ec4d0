/-
# Saving and loading

Results are saved as files on disk: any value as a JSON text, a list of lifespans
as a JSON text, one lifespan as a table. The directories on the way to a file are
made where they are missing, unless there are too many of them. Where a text cannot
be written to its end, because a value goes beyond the limits of the writer, the file
is left with what stands before: of a table, the header and the rows above. A text is
read back with every line end as a line feed. What goes wrong is told in the log as
well.

Key definitions: `Export.save`, `Export.saveJson`, `Export.loadJson`,
`Export.saveLifespans`, `Export.writeTable`, `Export.saveTable`.
-/
import Lineage.File
import Lineage.Json.Writer
import Lineage.Tracker

namespace Lineage.Export

/-- The most directories that are looked for on the way to a new one. -/
def wayLimit : Nat := 990

/-- Makes a directory, and before it the directories on the way there that are
missing, of which `room` may be looked for. -/
def makeWithin : (room : Nat) → (path : List Char) → Work Unit
  | 0, _ => throw .wayTooLong
  | room + 1, path => do
    let way := Path.withoutEnd path
    let above := Path.directory way
    let make := Work.onDisk fun d => d.makeDirectory (String.ofList path)
    if Path.name way = [] || above = [] || (← get).disk.exists? (String.ofList above) then
      make
    else
      Work.evenIfThere (makeWithin room above)
      if Path.name way ≠ ['.'] then make

/-- Makes a directory, and before it the directories on the way there that are
missing. -/
def makeDirectories (path : List Char) : Work Unit :=
  makeWithin wayLimit path

/-- Writes the bytes of a text to a file, in a directory that is made if it is missing. -/
def writeText (path : String) (text : List Char) : Work Unit := do
  let above := Path.directory path.toList
  if above ≠ [] && !(← get).disk.exists? (String.ofList above) then makeDirectories above
  Work.onDisk fun d => d.write path (Encoding.Utf8.encode text)

/-- Tells of a text that was written to its end, and fails if it was not. -/
def finish (notice : Notice) (w : Written) : Work Unit :=
  match w.stop with
  | none => Work.note notice
  | some fault => throw fault

/-- Saves what is written of a text. -/
def save (tell : Fault → Notice) (notice : Notice) (path : String) (w : Written) : Work Unit :=
  Work.telling tell do
    writeText path w.text
    finish notice w

/-- A text with every line end as a line feed. -/
def plainLineEnds : List Char → List Char
  | [] => []
  | '\r' :: '\n' :: rest => '\n' :: plainLineEnds rest
  | '\r' :: rest => '\n' :: plainLineEnds rest
  | c :: rest => c :: plainLineEnds rest

/-- The text of a file. -/
def readText (path : String) : Work (List Char) := do
  let bytes ← (← get).disk.read path
  return plainLineEnds (← File.decoded .utf8 bytes)

/-- Saves a value as a JSON text. -/
def saveJson (limits : Json.Limits) (path : String) (v : Json) : Work Unit :=
  save .jsonNotSaved (.savedJson path) path (v.write limits .opened)

/-- Loads a value from a JSON text. -/
def loadJson (limits : Json.Limits) (path : String) : Work Json :=
  Work.telling .jsonNotLoaded do
    match Json.parse limits (← readText path) with
    | .ok v => pure v
    | .error problem => throw (.badJson problem)

/-- Saves lifespans as a JSON text. -/
def saveLifespans (limits : Json.Limits) (path : String) (lifespans : List Lifespan) : Work Unit :=
  saveJson limits path (.arr (lifespans.map Lifespan.toJson))

/-- What stops the row of a snapshot, if anything. The texts of its values are made before
the numbers are written. -/
def rowStop (limits : Json.Limits) (s : Snapshot) : Option Fault :=
  [s.metadata, .arr (s.locations.map Location.toJson), .int s.ordinal, .int s.changes].findSome?
    fun v => (v.write limits .closed).stop

/-- What is written of the rows of snapshots. -/
def writeRows (limits : Json.Limits) : List (Snapshot × List (List Char)) → Written
  | [] => .whole []
  | (s, row) :: rest =>
    match rowStop limits s with
    | none => .after (Csv.row Lifespan.delimiter row) (writeRows limits rest)
    | some fault => .stopped fault

/-- What is written of the table of a lifespan. -/
def writeTable (limits : Json.Limits) (l : Lifespan) : Written :=
  .after (Csv.row Lifespan.delimiter (Lifespan.header.map String.toList))
    (writeRows limits (l.snapshots.zip l.snapshotRows))

/-- Saves a lifespan as a table. -/
def saveTable (limits : Json.Limits) (path : String) (l : Lifespan) : Work Unit :=
  save .tableNotSaved (.savedTable path) path (writeTable limits l)

end Lineage.Export
