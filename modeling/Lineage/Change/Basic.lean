/-
# File changes

A file change leads from an old file to a new one. Without an old file it adds
a file, without a new one it removes a file, and otherwise it modifies a file in
place or relocates it. Its diff is either computed from the two files or given
with the change. A computed diff is kept once it is complete; a change of which
one file cannot be read has no diff yet.

Key definitions: `Change`, `Change.compare`, `Change.kind`, `Change.diff`, `Change.delta`.
-/
import Lineage.Diff.Hunk
import Lineage.File

namespace Lineage

/-- Where the diff of a change comes from. -/
inductive Change.Origin where
  | compared
  | scripted (diff : List LineChange)
  deriving DecidableEq

/-- A step from an old file to a new one. -/
structure Change where
  handle : Nat
  old : Option File
  new : Option File
  origin : Change.Origin

/-- What a change does to a file. -/
inductive Change.Kind where
  | add
  | remove
  | modify
  | relocate
  deriving DecidableEq, Repr

namespace Change

/-- The kind's name. -/
def Kind.word : Kind → String
  | .add => "add"
  | .remove => "remove"
  | .modify => "modify"
  | .relocate => "relocate"

/-- A change whose diff is computed from its files. -/
def compare (old new : Option File) : Work Change := do
  Work.require (old ≠ none ∨ new ≠ none) .changeWithoutFiles
  pure ⟨← Work.fresh 1, old, new, .compared⟩

/-- A change whose diff is given. -/
def scripted (old new : Option File) (diff : List LineChange) : Work Change := do
  pure ⟨← Work.fresh 1, old, new, .scripted diff⟩

/-- What a change does. -/
def kind (c : Change) : Except Fault Kind :=
  match c.old, c.new with
  | none, none => .error (.inconsistent .changeWithoutFiles)
  | none, some _ => .ok .add
  | some _, none => .ok .remove
  | some old, some new =>
    .ok (if old.version.path = new.version.path then .modify else .relocate)

/-- A file, or its absence, in messages. -/
def fileText (f : Option File) : String :=
  (f.map File.name).getD absentText

/-- A change in messages. -/
def text (c : Change) : Except Fault String :=
  c.kind.map fun kind =>
    let origin :=
      match c.origin with
      | .compared => "DiffFileChange"
      | .scripted _ => "ScriptedFileChange"
    s!"{origin}({kind.word}: {fileText c.old} -> {fileText c.new})"

/-- The lines that a diff compares; a missing file has none. -/
def linesOf (f : Option File) : Work (List (List Char)) :=
  match f with
  | none => pure []
  | some f => do
    if ← f.isBinary then throw (.binary .diff f.name)
    f.lines

/-- The line changes of a change. -/
def diff (c : Change) : Work (List LineChange) :=
  match c.origin with
  | .scripted diff => pure diff
  | .compared => do
    match (← get).diffs c.handle with
    | some diff => pure diff
    | none =>
      let old ← linesOf c.old
      let new ← linesOf c.new
      let diff := lineDiff old new
      Work.note (.compared diff.length (← c.text))
      modify fun a => a.keepDiff c.handle diff
      pure diff

/-- Insertions less deletions. -/
def balance (diff : List LineChange) : Int :=
  (diff.countP LineChange.isInsert : Int) - diff.countP LineChange.isDelete

/-- The number of lines that a file grows by. -/
def delta (c : Change) : Work Int := do
  pure (balance (← c.diff))

end Change
end Lineage
