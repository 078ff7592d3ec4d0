/-
# Net changes

Changes made one after the other to the same file amount to one net change. A
change continues a chain if its old file is the version that the chain has led
to so far. A chain of one change stays that change; a longer one becomes a
change from its first old file to its last new file, unless it has neither,
because the file was added and removed again.

Key definitions: `Chain`, `Chain.gather`, `Change.net`.
-/
import Lineage.Change.Basic

namespace Lineage

/-- Changes that follow each other: the first one, the file they have led to, and
how many they are. -/
structure Chain where
  first : Change
  last : Option File
  length : Nat

namespace Chain

/-- Whether a change continues a chain. -/
def ContinuedBy (chain : Chain) (c : Change) : Prop :=
  match chain.last, c.old with
  | some f, some g => f.version = g.version
  | _, _ => False

instance (chain : Chain) (c : Change) : Decidable (chain.ContinuedBy c) := by
  unfold ContinuedBy
  split <;> infer_instance

/-- Puts a change at the end of the first chain that it continues, or begins a
chain with it. -/
def add (c : Change) : List Chain → List Chain
  | [] => [⟨c, c.new, 1⟩]
  | chain :: chains =>
    if chain.ContinuedBy c then { chain with last := c.new, length := chain.length + 1 } :: chains
    else chain :: add c chains

/-- The chains of a list of changes, in the order in which they begin. -/
def gather (changes : List Change) : List Chain :=
  changes.foldl (fun chains c => add c chains) []

/-- The net change of a chain, with a handle for it if it is a new one. -/
def net (handle : Nat) (chain : Chain) : Option Change :=
  if chain.length = 1 then some chain.first
  else if chain.first.old = none ∧ chain.last = none then none
  else some ⟨handle, chain.first.old, chain.last, .compared⟩

end Chain

namespace Change

/-- The net changes of a list of changes; chain number `k` may take the handle
`handle + k`. -/
def net (handle : Nat) (changes : List Change) : List Change :=
  ((Chain.gather changes).zipIdx handle).filterMap fun (chain, handle) => chain.net handle

/-- The net changes of a list of changes, with handles of their own. -/
def merge (changes : List Change) : Work (List Change) := do
  pure (net (← Work.fresh changes.length) changes)

end Change
end Lineage
