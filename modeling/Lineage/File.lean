/-
# Files of a revision

A file is a path in a revision; two files of one path and one revision are the
same version, whatever holds their content. The content is either given as text
or lies on disk. A file on disk is read once, and the bytes of that reading are
its bytes from then on; a reading that fails leaves nothing behind.

Content on disk is binary if too many of its bytes are outside printable ASCII
and its four common control characters: more than three in ten for source code,
which is known by its suffix, and more than nineteen in twenty for all else. A
binary file has no text.

Key definitions: `Version`, `File`, `File.looksBinary`, `File.bytes`, `File.text`, `File.lines`.
-/
import Lineage.Archive
import Lineage.Encoding.Basic
import Lineage.Text.Line

namespace Lineage

/-- A path in a revision. -/
structure Version where
  path : String
  revision : String
  deriving DecidableEq, Repr

/-- A version in messages. -/
def Version.text (v : Version) : String :=
  s!"{v.path}@{v.revision}"

/-- What holds the content of a file: a text, or a path below a root on disk. -/
inductive Holder where
  | memory (text : List Char)
  | disk (handle : Nat) (root : String) (encoding : Encoding)

/-- A file of a revision. -/
structure File where
  version : Version
  holder : Holder

namespace File

/-- A file with a given text. -/
def ofText (version : Version) (text : List Char) : Except Fault File :=
  if version.path = "" then .error (.misuse .emptyPath) else .ok ⟨version, .memory text⟩

/-- A file below a root on disk. -/
def onDisk (version : Version) (handle : Nat) (root : String) (encoding : Encoding) :
    Except Fault File :=
  if version.path = "" then .error (.misuse .emptyPath)
  else .ok ⟨version, .disk handle root encoding⟩

/-- The name of the file in messages. -/
def name (f : File) : String :=
  f.version.text

/-- The file in full, as its kind and its version. -/
def literal (f : File) : String :=
  let kind :=
    match f.holder with
    | .memory _ => "InMemoryFile"
    | .disk .. => "DiskFile"
  let path := String.ofList (Text.quoted f.version.path)
  let revision := String.ofList (Text.quoted f.version.revision)
  s!"{kind}({path}, {revision})"

/-! ### Binary content -/

/-- The suffixes of source code. -/
def sourceSuffixes : List String :=
  [".c", ".h", ".cc", ".hh", ".cpp", ".hpp", ".cxx", ".hxx", ".css", ".cs", ".groovy", ".html",
   ".java", ".js", ".xhtml", ".kt", ".md", ".php", ".py", ".scala", ".tex", ".ts"]

/-- The small form of a character, as far as it is an ASCII letter. The capital
ASCII letters have one, and so has the Kelvin sign. -/
def smallLetter (c : Char) : Char :=
  if c = '\u212a' then 'k' else c.toLower

/-- Whether a path has a suffix of source code, in small or capital letters. -/
def isSourcePath (path : String) : Bool :=
  let letters := path.toList.map smallLetter
  sourceSuffixes.any fun suffix => suffix.toList.isSuffixOf letters

/-- Whether a byte is printable ASCII, a tab, a line feed, a form feed or a
carriage return. -/
def isPlainByte (b : UInt8) : Bool :=
  b == 0x09 || b == 0x0A || b == 0x0C || b == 0x0D || (0x20 ≤ b && b ≤ 0x7E)

/-- Whether the content at a path is binary. -/
def looksBinary (path : String) (bytes : List UInt8) : Bool :=
  let strange := bytes.countP fun b => !isPlainByte b
  if isSourcePath path then 3 * bytes.length < 10 * strange
  else 19 * bytes.length < 20 * strange

/-! ### Reading -/

/-- The bytes at a path on disk. -/
def readDisk (path : String) : Work (List UInt8) := do
  Work.note (.reading path)
  (← get).disk.read path

/-- The bytes of a file. -/
def bytes (f : File) : Work (List UInt8) :=
  match f.holder with
  | .memory text => pure (Encoding.Utf8.encode text)
  | .disk handle root _ => do
    match (← get).bytes handle with
    | some bytes => pure bytes
    | none =>
      let bytes ← readDisk (Path.join root f.version.path)
      modify fun a => a.keepBytes handle bytes
      pure bytes

/-- Whether a file is binary. A given text never is. -/
def isBinary (f : File) : Work Bool :=
  match f.holder with
  | .memory _ => pure false
  | .disk .. => do pure (looksBinary f.version.path (← f.bytes))

/-- The text of bytes in an encoding. -/
def decoded (encoding : Encoding) (bytes : List UInt8) : Except Fault (List Char) :=
  match encoding.decode bytes with
  | .ok text => .ok text
  | .error (.undecodable name sequence) => .error (.undecodable name sequence)
  | .error (.unknown name) => .error (.unknownEncoding name)

/-- The text of a file. -/
def text (f : File) : Work (List Char) :=
  match f.holder with
  | .memory text => pure text
  | .disk _ _ encoding => do
    if ← f.isBinary then throw (.binary .content f.name)
    decoded encoding (← f.bytes)

/-- The lines of a file, with their terminators. -/
def fullLines (f : File) : Work (List Text.Line) := do
  pure (Text.splitLines (← f.text))

/-- The lines of a file, without their terminators. -/
def lines (f : File) : Work (List (List Char)) := do
  pure ((← f.fullLines).map Text.stripEnd)

end File
end Lineage
