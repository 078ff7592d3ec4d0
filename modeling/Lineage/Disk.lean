/-
# The disk

A disk holds directories, which are known by numbers. A directory has names, and
under each name there is a file or another directory. The directory at the top
has number zero and is under no name.

A path is followed from the top, part by part. Each part is looked up in what
the parts before it lead to, which has to be a directory. An empty part and `.`
stay there, `..` goes one up, and every other part is a name. What is made or
removed has to be named in this sense.

Key definitions: `Disk`, `Disk.target`, `Disk.read`, `Disk.write`, `Disk.remove`,
`Disk.makeDirectory`.
Key theorem: `Disk.entry_set`.
-/
import Lineage.Fault
import Lineage.Path

namespace Lineage

/-- What is under a name in a directory. -/
inductive Disk.Entry where
  | file (bytes : List UInt8)
  | directory (number : Nat)
  deriving DecidableEq, Repr

/-- What is under the names of every directory, and the number of the next one. -/
structure Disk where
  entry : (directory : Nat) → (name : List Char) → Option Disk.Entry
  nextNumber : Nat

namespace Disk

/-- A disk with nothing on it. -/
def empty : Disk :=
  ⟨fun _ _ => none, 1⟩

/-- The disk after a change under one name of a directory. -/
def set (d : Disk) (directory : Nat) (name : List Char) (e : Option Entry) : Disk :=
  { d with entry := fun i n => if i == directory && n == name then e else d.entry i n }

/-- What is set under a name is there, and all else stays. -/
theorem entry_set (d : Disk) (directory : Nat) (name : List Char) (e : Option Entry) (i : Nat)
    (n : List Char) :
    (d.set directory name e).entry i n =
      if i = directory ∧ n = name then e else d.entry i n := by
  simp [set]

/-! ### Following paths -/

/-- The numbers of the directories on a way down from the top, the last one first. -/
abbrev Way := List Nat

/-- The directory that a way leads to. -/
def Way.last : Way → Nat
  | [] => 0
  | number :: _ => number

/-- What a path leads to. -/
inductive Target where
  | directory (way : Way)
  | file (bytes : List UInt8)
  | nothing
  deriving DecidableEq, Repr

/-- The most bytes that a name may take up. -/
def nameLimit : Nat := 255

/-- The most bytes that a path may take up. -/
def pathLimit : Nat := 4095

/-- Whether a part of a path takes up more bytes than a name may. -/
def isTooLong (part : List Char) : Bool :=
  nameLimit < (String.ofList part).utf8ByteSize

/-- Whether a part of a path is a name. -/
def isName : List Char → Bool
  | [] => false
  | ['.'] => false
  | ['.', '.'] => false
  | _ => true

/-- What is under a name, or is nothing, at the end of a way. -/
def under (d : Disk) (way : Way) (name : List Char) : Target :=
  match d.entry way.last name with
  | none => .nothing
  | some (.file bytes) => .file bytes
  | some (.directory number) => .directory (number :: way)

/-- Where a part of a path leads from a directory. -/
def step (d : Disk) (way : Way) (part : List Char) : Target :=
  if isName part then d.under way part
  else if part = ['.', '.'] then .directory (way.drop 1)
  else .directory way

/-- Where parts of a path lead from a target. -/
def follow (d : Disk) (path : String) : Target → List (List Char) → Except Fault Target
  | target, [] => .ok target
  | .nothing, _ :: _ => .error (.noFile path)
  | .file _, _ :: _ => .error (.notDirectory path)
  | .directory way, part :: rest =>
    if isTooLong part then .error (.nameTooLong path)
    else d.follow path (d.step way part) rest

/-- The parts of a path that can be followed: one that is neither empty nor too
long, and without the character that ends a path for the system. -/
def partsOf (path : String) : Except Fault (List (List Char)) :=
  if path.toList.contains '\x00' then .error .nulByte
  else if path = "" then .error (.noFile path)
  else if pathLimit < path.utf8ByteSize then .error (.nameTooLong path)
  else .ok (Path.parts path.toList)

/-- What a path leads to, which may be nothing. -/
def target (d : Disk) (path : String) : Except Fault Target := do
  d.follow path (.directory []) (← partsOf path)

/-- Whether a path leads to anything. -/
def exists? (d : Disk) (path : String) : Bool :=
  match d.target path with
  | .ok .nothing | .error _ => false
  | .ok _ => true

/-- Whether a path leads to a directory. -/
def isDirectory (d : Disk) (path : String) : Bool :=
  match d.target path with
  | .ok (.directory _) => true
  | _ => false

/-- The way to the directory in which the last part of a path is looked up, and
that part. -/
def lastStep (d : Disk) (path : String) : Except Fault (Way × List Char) := do
  let _ ← partsOf path
  let parts := Path.parts (Path.withoutEnd path.toList)
  match ← d.follow path (.directory []) parts.dropLast with
  | .directory way => return (way, parts.getLast?.getD [])
  | .file _ => .error (.notDirectory path)
  | .nothing => .error (.noFile path)

/-! ### Files and directories -/

/-- The bytes of the file at a path. -/
def read (d : Disk) (path : String) : Except Fault (List UInt8) := do
  match ← d.target path with
  | .file bytes => .ok bytes
  | .directory _ => .error (.isDirectory path)
  | .nothing => .error (.noFile path)

/-- The disk after bytes are written to the file at a path. -/
def write (d : Disk) (path : String) (bytes : List UInt8) : Except Fault Disk := do
  let (way, name) ← d.lastStep path
  if Path.endsInSlash path.toList || !isName name then .error (.isDirectory path)
  else if isTooLong name then .error (.nameTooLong path)
  else
    match d.entry way.last name with
    | some (.directory _) => .error (.isDirectory path)
    | _ => .ok (d.set way.last name (some (.file bytes)))

/-- The disk after the file at a path is removed. -/
def remove (d : Disk) (path : String) : Except Fault Disk := do
  let (way, name) ← d.lastStep path
  if !isName name then .error (.isDirectory path)
  else if isTooLong name then .error (.nameTooLong path)
  else
    match d.entry way.last name with
    | none => .error (.noFile path)
    | some (.directory _) => .error (.isDirectory path)
    | some (.file _) =>
      if Path.endsInSlash path.toList then .error (.notDirectory path)
      else .ok (d.set way.last name none)

/-- The disk after a directory is made at a path. -/
def makeDirectory (d : Disk) (path : String) : Except Fault Disk := do
  let (way, name) ← d.lastStep path
  if !isName name then .error (.alreadyThere path)
  else if isTooLong name then .error (.nameTooLong path)
  else
    match d.entry way.last name with
    | some _ => .error (.alreadyThere path)
    | none =>
      .ok { d.set way.last name (some (.directory d.nextNumber)) with
        nextNumber := d.nextNumber + 1 }

end Disk
end Lineage
