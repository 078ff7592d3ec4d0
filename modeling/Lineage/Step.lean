/-
# Steps

History is followed in steps. A step leads from a predecessor revision to a
revision and carries the commits in between and the file changes they amount to.

Key definitions: `Commit`, `Commit.ofJson?`, `Step`, `Step.make`.
-/
import Lineage.Change.Net

namespace Lineage

/-- A commit and its file changes. -/
structure Commit where
  id : String
  message : String
  author : String
  changes : List Change

/-- A commit with given changes from its record. -/
def Commit.ofJson? (changes : List Change) (v : Json) : Checked Commit :=
  let id := Record.field v "id" Record.text
  let message := Record.fieldOr v "message" "" Record.text
  let author := Record.fieldOr v "author" "" Record.text
  (id.zip (message.zip author)).map fun (id, message, author) => ⟨id, message, author, changes⟩

/-- A step from one revision to the next. -/
structure Step where
  ordinal : Int
  revision : String
  predecessor : Option String
  commits : List Commit
  changes : List Change

namespace Step

/-- A step. If its changes are not given they are the net changes of its commits. -/
def make (ordinal : Int) (revision : String) (predecessor : Option String)
    (commits : List Commit) (changes : Option (List Change)) : Work Step := do
  Work.require (1 ≤ ordinal) .ordinalBelowOne
  Work.require (revision ≠ "") .emptyRevision
  match changes with
  | some changes => pure ⟨ordinal, revision, predecessor, commits, changes⟩
  | none =>
    let changes ← Change.merge (commits.flatMap Commit.changes)
    pure ⟨ordinal, revision, predecessor, commits, changes⟩

/-- The last commit of a step. -/
def latest (s : Step) : Option Commit :=
  s.commits.getLast?

/-- A step in messages. -/
def text (s : Step) : String :=
  s!"RevisionRange(ordinal={s.ordinal}, revision={s.revision}, " ++
    s!"predecessor={s.predecessor.getD absentText}, file_changes={s.changes.length})"

end Step
end Lineage
