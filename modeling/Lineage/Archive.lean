/-
# The archive

Work happens against an archive: what lies on disk, the bytes already read from
it, the line diffs already computed, and the log. Bytes and diffs are kept under
the handle of the file or change they belong to; a handle is a number given out
once. What is kept is never replaced, so an answer that was given stays the
answer whatever happens on disk afterwards.

`Work` is a computation on the archive that may fail; what it did to the archive
before it failed stays done.

Key definitions: `Archive`, `Work`, `Work.note`, `Work.fresh`, `Work.onDisk`, `Work.require`.
-/
import Lineage.Disk
import Lineage.LineChange
import Lineage.Notice

namespace Lineage

/-- What work happens against. -/
structure Archive where
  disk : Disk
  bytes : Nat → Option (List UInt8)
  diffs : Nat → Option (List LineChange)
  nextHandle : Nat
  log : List Notice

namespace Archive

/-- An empty disk, nothing kept, nothing logged. -/
def empty : Archive where
  disk := .empty
  bytes _ := none
  diffs _ := none
  nextHandle := 0
  log := []

/-- The archive after the bytes of a file are kept. -/
def keepBytes (a : Archive) (handle : Nat) (bytes : List UInt8) : Archive :=
  { a with bytes := fun h => if h = handle then some bytes else a.bytes h }

/-- The archive after the diff of a change is kept. -/
def keepDiff (a : Archive) (handle : Nat) (diff : List LineChange) : Archive :=
  { a with diffs := fun h => if h = handle then some diff else a.diffs h }

end Archive

/-- A computation on the archive that may fail. -/
abbrev Work := ExceptT Fault (StateM Archive)

namespace Work

/-- Adds a notice to the log. -/
def note (n : Notice) : Work Unit :=
  modify fun a => { a with log := a.log ++ [n] }

/-- Takes `count` handles and returns the first of them. -/
def fresh (count : Nat) : Work Nat :=
  modifyGet fun a => (a.nextHandle, { a with nextHandle := a.nextHandle + count })

/-- Changes the disk. -/
def onDisk (change : Disk → Except Fault Disk) : Work Unit := do
  let disk ← change (← get).disk
  modify fun a => { a with disk }

/-- Fails unless a precondition holds. -/
def require (condition : Prop) [Decidable condition] (otherwise : Misuse) : Work Unit :=
  if condition then pure () else throw (.misuse otherwise)

/-- Fails unless an operand is given. -/
def need {α : Type} (operand : Operand) : Option α → Work α
  | some a => pure a
  | none => throw (.misuse (.missing operand))

/-- Runs work that may find what it should make already there. -/
def evenIfThere (work : Work Unit) : Work Unit :=
  tryCatch work fun fault =>
    match fault with
    | .alreadyThere _ => pure ()
    | _ => throw fault

/-- Runs work, and tells the fault in the log if it fails. -/
def telling {α : Type} (tell : Fault → Notice) (work : Work α) : Work α :=
  tryCatch work fun fault => do
    note (tell fault)
    throw fault

end Work
end Lineage
