/-
# JSON values

A JSON value keeps what a reader of the text could tell apart: whole numbers
of any size stay whole, other numbers are double-precision, and the members of
an object stay in order. Two values are the `same` if they mean the same:
numbers are compared by value across their kinds, with true and false counting
as one and zero, and the order of an object's members does not matter.

Values are nested, and whole numbers have digits. A text in the format can hold any
value, but those who read and write it have limits for both, and what a value needs of
them can be told.

Key definitions: `Json`, `Json.same`, `Json.Limits`, `Json.needs`, `Json.get?`.
-/
import Lineage.Double.Basic
import Lineage.Text.Numeral

namespace Lineage

/-- A JSON value. -/
inductive Json where
  | null
  | bool (value : Bool)
  | int (value : Int)
  | float (value : Double)
  | str (value : String)
  | arr (items : List Json)
  | obj (members : List (String × Json))
  deriving Repr, Inhabited

namespace Json

/-- The value of a number; true and false are one and zero. -/
def number? : Json → Option Rat
  | .bool b => some (if b then 1 else 0)
  | .int i => some i
  | .float d => some d.value
  | _ => none

/-- Whether two values that hold no others are the same. -/
def sameLeaf : Json → Json → Bool
  | .null, .null => true
  | .str s, .str t => s == t
  | v, w =>
    match v.number?, w.number? with
    | some x, some y => x == y
    | _, _ => false

mutual

/-- Whether two values mean the same. -/
def same : Json → Json → Bool
  | .arr xs, .arr ys => sameItems xs ys
  | .obj xs, .obj ys => xs.length == ys.length && sameMembers xs ys
  | v, w => sameLeaf v w

/-- Whether two lists hold the same values in the same order. -/
def sameItems : List Json → List Json → Bool
  | [], [] => true
  | x :: xs, y :: ys => same x y && sameItems xs ys
  | _, _ => false

/-- Whether every member in the first list has its name and value in the second. -/
def sameMembers : List (String × Json) → List (String × Json) → Bool
  | [], _ => true
  | (name, x) :: xs, ys =>
    match ys.lookup name with
    | some y => same x y && sameMembers xs ys
    | none => false

end

mutual

/-- The number of arrays and objects that lie inside each other. -/
def depth : Json → Nat
  | .arr vs => depthOfItems vs + 1
  | .obj ms => depthOfMembers ms + 1
  | _ => 0

/-- The depth of the deepest item. -/
def depthOfItems : List Json → Nat
  | [] => 0
  | v :: vs => max (depth v) (depthOfItems vs)

/-- The depth of the deepest member. -/
def depthOfMembers : List (String × Json) → Nat
  | [] => 0
  | (_, v) :: ms => max (depth v) (depthOfMembers ms)

end

mutual

/-- The number of digits of the longest whole number in a value. -/
def digits : Json → Nat
  | .int i => (Nat.toDigits 10 i.natAbs).length
  | .arr vs => digitsOfItems vs
  | .obj ms => digitsOfMembers ms
  | _ => 0

/-- The most digits in an item. -/
def digitsOfItems : List Json → Nat
  | [] => 0
  | v :: vs => max (digits v) (digitsOfItems vs)

/-- The most digits in a member. -/
def digitsOfMembers : List (String × Json) → Nat
  | [] => 0
  | (_, v) :: ms => max (digits v) (digitsOfMembers ms)

end

/-- How many brackets may be open at a time in a text, and how many digits a whole number
may have in it. -/
structure Limits where
  nesting : Nat
  digits : Nat
  deriving DecidableEq, Repr

namespace Limits

/-- The limits of a reader or writer that is given no others. -/
def standard : Limits := ⟨988, Text.numeralLimit⟩

instance : LE Limits where
  le l m := l.nesting ≤ m.nesting ∧ l.digits ≤ m.digits

instance (l m : Limits) : Decidable (l ≤ m) :=
  inferInstanceAs (Decidable (l.nesting ≤ m.nesting ∧ l.digits ≤ m.digits))

end Limits

/-- The least limits within which a value can be written and read. -/
def needs (v : Json) : Limits :=
  ⟨v.depth, v.digits⟩

/-- A member of an object. -/
def get? (v : Json) (name : String) : Option Json :=
  match v with
  | .obj members => members.lookup name
  | _ => none

end Json
end Lineage
