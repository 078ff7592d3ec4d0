/-
# Records from JSON

Records arrive as JSON objects and are checked field by field. Every field is
looked at, so that all that is wrong with a record is told at once, in the
order of its fields; members that are not fields are passed over. Whole numbers
may come as numbers without a fraction, as truth values or as numerals.

Key definitions: `Issue`, `Checked`, `Record.atLeast`, `Record.text`, `Record.object`.
-/
import Lineage.Json.Basic
import Lineage.Text.PlainNumeral

namespace Lineage

/-- A step on the way to a field: a name, or a place in a list. -/
inductive Issue.Segment where
  | field (name : String)
  | item (index : Nat)
  deriving DecidableEq, Repr

/-- What is wrong with a field or with a record as a whole. -/
inductive Issue.Kind where
  | missing
  | notWhole
  | notNumeral
  | fractional
  | tooLarge
  | below (low : Int)
  | notText
  | notList
  | noItems
  | notRecord (name : String)
  | notLineChangeKind
  | differentFiles
  | reversed
  deriving DecidableEq, Repr

/-- Something wrong in a record, and where. -/
structure Issue where
  path : List Issue.Segment
  kind : Issue.Kind
  deriving DecidableEq, Repr

/-- The short name of a kind of issue. -/
def Issue.Kind.tag : Issue.Kind → String
  | .missing => "missing"
  | .notWhole => "int_type"
  | .notNumeral => "int_parsing"
  | .fractional => "int_from_float"
  | .tooLarge => "int_parsing_size"
  | .below _ => "greater_than_equal"
  | .notText => "string_type"
  | .notList => "list_type"
  | .noItems => "too_short"
  | .notRecord _ => "model_type"
  | .notLineChangeKind => "enum"
  | .differentFiles => "value_error"
  | .reversed => "value_error"

/-- A kind of issue in words. -/
def Issue.Kind.message : Issue.Kind → String
  | .missing => "Field required"
  | .notWhole => "Input should be a valid integer"
  | .notNumeral => "Input should be a valid integer, unable to parse string as an integer"
  | .fractional => "Input should be a valid integer, got a number with a fractional part"
  | .tooLarge => "Unable to parse input string as an integer, exceeded maximum size"
  | .below low => s!"Input should be greater than or equal to {low}"
  | .notText => "Input should be a valid string"
  | .notList => "Input should be a valid list"
  | .noItems => "List should have at least 1 item after validation, not 0"
  | .notRecord name => s!"Input should be a valid dictionary or instance of {name}"
  | .notLineChangeKind => "Input should be 'insert' or 'delete'"
  | .differentFiles => "Value error, Begin and end position reference different files."
  | .reversed => "Value error, Begin must not be after end."

/-- The outcome of a check: a value, or everything that is wrong. -/
abbrev Checked (α : Type) := Except (List Issue) α

namespace Checked

/-- Two checks side by side. What is wrong in either is kept. -/
def zip {α β : Type} : Checked α → Checked β → Checked (α × β)
  | .ok a, .ok b => .ok (a, b)
  | .ok _, .error js => .error js
  | .error is, .ok _ => .error is
  | .error is, .error js => .error (is ++ js)

/-- A check of something further in: its issues are found one step further on. -/
def within {α : Type} (segment : Issue.Segment) : Checked α → Checked α
  | .ok a => .ok a
  | .error is => .error (is.map fun i => { i with path := segment :: i.path })

/-- A check of every item of a list, counted from `i`. -/
def items {α : Type} (check : Json → Checked α) (i : Nat) : List Json → Checked (List α)
  | [] => .ok []
  | v :: vs =>
    (zip (within (.item i) (check v)) (items check (i + 1) vs)).map fun (a, as) => a :: as

end Checked

namespace Record

/-- A check that fails with one issue, about the value itself. -/
def fail {α : Type} (kind : Issue.Kind) : Checked α :=
  .error [⟨[], kind⟩]

/-- A whole number. -/
def whole : Json → Checked Int
  | .int i => .ok i
  | .bool b => .ok (if b then 1 else 0)
  | .float d =>
    match d.toInt? with
    | none => fail .fractional
    | some i => if i.natAbs < 0x8000000000000000 then .ok i else fail .tooLarge
  | .str s =>
    match Text.readPlainNumeral s with
    | .whole i => .ok i
    | .malformed => fail .notNumeral
    | .tooLong => fail .tooLarge
  | _ => fail .notWhole

/-- A whole number that is not below `low`. -/
def atLeast (low : Int) (v : Json) : Checked { i : Int // low ≤ i } :=
  match whole v with
  | .error is => .error is
  | .ok i => if h : low ≤ i then .ok ⟨i, h⟩ else fail (.below low)

/-- A text. -/
def text : Json → Checked String
  | .str s => .ok s
  | _ => fail .notText

/-- A list with at least one item. -/
def nonempty {α : Type} (check : Json → Checked α) :
    Json → Checked { as : List α // as ≠ [] }
  | .arr vs =>
    match Checked.items check 0 vs with
    | .error is => .error is
    | .ok as => if h : as ≠ [] then .ok ⟨as, h⟩ else fail .noItems
  | _ => fail .notList

/-- A record of a given name, which has to be an object. -/
def object {α : Type} (name : String) (check : Json → Checked α) (v : Json) : Checked α :=
  match v with
  | .obj _ => check v
  | _ => fail (.notRecord name)

/-- A field that has to be there. -/
def field {α : Type} (record : Json) (name : String) (check : Json → Checked α) : Checked α :=
  Checked.within (.field name) <|
    match record.get? name with
    | some v => check v
    | none => fail .missing

/-- A field that stands for `absent` where it is not given. -/
def fieldOr {α : Type} (record : Json) (name : String) (absent : α) (check : Json → Checked α) :
    Checked α :=
  match record.get? name with
  | some v => Checked.within (.field name) (check v)
  | none => .ok absent

end Record
end Lineage
