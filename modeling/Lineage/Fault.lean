/-
# Faults

Everything that can go wrong, by cause. A misuse is a broken precondition: the
caller asked for something that makes no sense. An inconsistency is a state that
should not arise from sensible use. The others come from the disk and from what
files hold: binary content, bytes that are no text, records and JSON texts that
do not fit.

Key definitions: `Misuse`, `Inconsistency`, `Fault`, `Fault.message`.
-/
import Lineage.Encoding.Undecodable
import Lineage.Json.Parser
import Lineage.Json.Printer
import Lineage.Record
import Lineage.Text.Quoted

namespace Lineage

/-- The two sides of a step: the fragments before it and after it. -/
inductive Side where
  | source
  | target
  deriving DecidableEq, Repr

/-- The side in messages. -/
def Side.word : Side → String
  | .source => "from"
  | .target => "to"

/-- The side at the start of a message. -/
def Side.capitalWord : Side → String
  | .source => "From"
  | .target => "To"

/-- What a caller must not leave out. -/
inductive Operand where
  | fileChange
  | file
  | range
  | revisionRange
  | fragment
  | firstSnapshot
  | snapshot
  | matching
  deriving DecidableEq, Repr

/-- An operand in messages. -/
def Operand.word : Operand → String
  | .fileChange => "file change"
  | .file => "file"
  | .range => "range"
  | .revisionRange => "revision range"
  | .fragment => "mappable"
  | .firstSnapshot => "first entity"
  | .snapshot => "entity"
  | .matching => "mapping result"

/-- A precondition that the caller broke. -/
inductive Misuse where
  | missing (operand : Operand)
  | emptyPath
  | emptyRevision
  | lineBelowOne
  | columnBelowOne
  | tabBelowOne
  | offsetBelowZero
  | ordinalBelowOne
  | changesBelowZero
  | changeWithoutFiles
  | changeWithoutOld
  | changeOfOther (file : String)
  | incomparable (file : String) (other : Option String)
  | unmergeable (file other : String)
  | withoutRanges (fragment : String)
  | otherRevision (side : Side) (found expected : String)
  | noPredecessor
  | unknown (side : Side)
  deriving DecidableEq, Repr

/-- An absent thing in messages. -/
def absentText : String := "None"

/-- A misuse in words. -/
def Misuse.message : Misuse → String
  | .missing operand => s!"{operand.word} must not be None"
  | .emptyPath => "relative path must not be empty"
  | .emptyRevision => "revision id must not be empty"
  | .lineBelowOne => "line < 1"
  | .columnBelowOne => "column < 1"
  | .tabBelowOne => "tab size < 1"
  | .offsetBelowZero => "offset < 0"
  | .ordinalBelowOne => "ordinal < 1"
  | .changesBelowZero => "num changes < 0"
  | .changeWithoutFiles => "A file change requires an old file or a new file"
  | .changeWithoutOld => "The given file change has no old file."
  | .changeOfOther file => s!"The given file change references an invalid file: {file}"
  | .incomparable file other =>
    s!"Positions of different files are not comparable: {file} and {other.getD absentText}"
  | .unmergeable file other => s!"Unable to merge ranges of different files: {file} and {other}"
  | .withoutRanges fragment => s!"Mappable without ranges: {fragment}"
  | .otherRevision .target found expected =>
    s!"Revision of to mappable ({found}) does not match current revision ({expected})"
  | .otherRevision .source found expected =>
    s!"Revision of from mappable ({found}) does not match predecessor revision ({expected})"
  | .noPredecessor => "Revision range without predecessor"
  | .unknown side => s!"Unknown {side.word} mappable"

/-- A state that should not arise. -/
inductive Inconsistency where
  | changeWithoutFiles
  | unresolved (line column : Int)
  | beyondEnd (position : String)
  | noBeginOfLine (line : Int)
  | noEndOfLine (line : Int)
  | alreadyLinked (side : Side)
  | ordinalDecreases (next last : Int)
  | changesDecrease (next last : Int)
  | contentLeft
  deriving DecidableEq, Repr

/-- An inconsistency in words. -/
def Inconsistency.message : Inconsistency → String
  | .changeWithoutFiles => "Neither the old file nor the new file is available"
  | .unresolved line column => s!"Unable to resolve translated position {line}:{column}"
  | .beyondEnd position => s!"Position beyond end of file: {position}"
  | .noBeginOfLine line => s!"Unable to resolve begin of line {line}"
  | .noEndOfLine line => s!"Unable to resolve end of line {line}"
  | .alreadyLinked side => s!"{side.capitalWord} mappable is already linked"
  | .ordinalDecreases next last =>
    s!"Ordinal of entity ({next}) is lower than ordinal of last entity ({last})"
  | .changesDecrease next last =>
    s!"Number of changes of entity ({next}) is lower than number of changes of last entity ({last})"
  | .contentLeft => "Unmatched content left after comparison"

/-- What a binary file cannot be used for. -/
inductive TextUse where
  | content
  | diff
  deriving DecidableEq, Repr

/-- The use in messages. -/
def TextUse.phrase : TextUse → String
  | .content => "read content"
  | .diff => "compute diff"

/-- Why something could not be done. -/
inductive Fault where
  | misuse (cause : Misuse)
  | inconsistent (cause : Inconsistency)
  | binary (use : TextUse) (file : String)
  | invalid (issues : List Issue)
  | undecodable (encoding : String) (sequence : Encoding.Undecodable)
  | unknownEncoding (name : String)
  | noFile (path : String)
  | isDirectory (path : String)
  | notDirectory (path : String)
  | alreadyThere (path : String)
  | nameTooLong (path : String)
  | nulByte
  | illegalName (name : String)
  | offsetOutOfRange
  | lineOutOfRange
  | zeroTabSize
  | notANumeral (text : String)
  | badJson (problem : Json.Problem)
  | numberTooLong (limit : Nat)
  | tooDeep (style : Json.Style)
  | wayTooLong
  deriving DecidableEq, Repr

/-- A fault in words. -/
def Fault.message : Fault → String
  | .misuse cause => cause.message
  | .inconsistent cause => cause.message
  | .binary use file => s!"Unable to {use.phrase} of binary file: {file}"
  | .invalid issues => ", ".intercalate (issues.map fun i => i.kind.message)
  | .undecodable encoding sequence => sequence.message encoding
  | .unknownEncoding name => s!"unknown encoding: {name}"
  | .noFile path =>
    s!"[Errno 2] No such file or directory: {String.ofList (Text.quoted path)}"
  | .isDirectory path => s!"[Errno 21] Is a directory: {String.ofList (Text.quoted path)}"
  | .notDirectory path => s!"[Errno 20] Not a directory: {String.ofList (Text.quoted path)}"
  | .alreadyThere path => s!"[Errno 17] File exists: {String.ofList (Text.quoted path)}"
  | .nameTooLong path => s!"[Errno 36] File name too long: {String.ofList (Text.quoted path)}"
  | .nulByte => "embedded null byte"
  | .illegalName "" => "[Errno 22] Invalid argument"
  | .illegalName _ => "illegal environment variable name"
  | .offsetOutOfRange => "string index out of range"
  | .lineOutOfRange => "list index out of range"
  | .zeroTabSize => "tab size is zero"
  | .notANumeral text => s!"not a numeral: {String.ofList (Text.quoted text)}"
  | .badJson problem => problem.message
  | .numberTooLong limit =>
    s!"Exceeds the limit ({limit} digits) for integer string conversion; " ++
      "use sys.set_int_max_str_digits() to increase the limit"
  | .tooDeep style =>
    match style.indent with
    | none => "maximum recursion depth exceeded while encoding a JSON object"
    | some _ => "maximum recursion depth exceeded"
  | .wayTooLong => "maximum recursion depth exceeded"

end Lineage
