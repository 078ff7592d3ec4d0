/-
# Line changes

A line change inserts or deletes one line. A deleted line is numbered in the old
text, an inserted one in the new text, both from one.

Key definitions: `LineChange`, `LineChange.ofJson?`.
-/
import Lineage.Record

namespace Lineage

/-- What happens to a line. -/
inductive LineChange.Kind where
  | insert
  | delete
  deriving DecidableEq, Repr

/-- One line inserted or deleted. -/
structure LineChange where
  kind : LineChange.Kind
  line : Int
  content : List Char
  one_le_line : 1 ≤ line
  deriving DecidableEq

namespace LineChange

/-- The kind's name. -/
def Kind.word : Kind → String
  | .insert => "insert"
  | .delete => "delete"

/-- The kind of a name. -/
def Kind.ofJson? : Json → Checked Kind
  | .str "insert" => .ok .insert
  | .str "delete" => .ok .delete
  | _ => Record.fail .notLineChangeKind

/-- A line change from its record; without content the line is empty. -/
def ofJson? (v : Json) : Checked LineChange :=
  let kind := Record.field v "type" Kind.ofJson?
  let line := Record.field v "line" (Record.atLeast 1)
  let content := Record.fieldOr v "content" "" Record.text
  (kind.zip (line.zip content)).map fun (kind, ⟨line, h⟩, content) =>
    ⟨kind, line, content.toList, h⟩

/-- Whether a line is deleted. -/
def isDelete (c : LineChange) : Bool :=
  c.kind == .delete

/-- Whether a line is inserted. -/
def isInsert (c : LineChange) : Bool :=
  c.kind == .insert

end LineChange
end Lineage
