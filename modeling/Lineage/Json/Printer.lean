/-
# Printing JSON

A value is printed in one of two styles. The open style puts every item and
member on its own line, two spaces further in than what holds it, and keeps all
characters but the ones JSON makes escape. The closed style prints on one line
and escapes everything that is not a printable ASCII character. A value is
printed in front of the text that follows it.

Key definitions: `Json.Style`, `Json.Style.opened`, `Json.Style.closed`, `Json.print`.
-/
import Lineage.Json.Basic
import Lineage.Double.Shortest
import Lineage.Text.Hex

namespace Lineage.Json

/-- How a value is laid out: how far to move in for each level, or to stay on
one line, and whether only printable ASCII may appear. -/
structure Style where
  indent : Option Nat
  asciiOnly : Bool
  deriving DecidableEq, Repr

namespace Style

/-- A line for each item, two spaces further in for each level. -/
def opened : Style := ⟨some 2, false⟩

/-- One line of printable ASCII. -/
def closed : Style := ⟨none, true⟩

/-- What stands between two items at a level. -/
def separator (style : Style) (level : Nat) : List Char :=
  match style.indent with
  | none => [',', ' ']
  | some width => ',' :: '\n' :: List.replicate (width * level) ' '

/-- What stands between a bracket and the items of a level. -/
def margin (style : Style) (level : Nat) : List Char :=
  match style.indent with
  | none => []
  | some width => '\n' :: List.replicate (width * level) ' '

end Style

/-- The escape of a 16-bit unit. -/
def escapeUnit (n : Nat) : List Char :=
  '\\' :: 'u' :: Text.hexDigits 4 n

/-- The escape of a code point; one above 0xFFFF takes a surrogate pair. -/
def escapePoint (n : Nat) : List Char :=
  if n < 0x10000 then escapeUnit n
  else escapeUnit (0xD800 + (n - 0x10000) / 0x400) ++ escapeUnit (0xDC00 + (n - 0x10000) % 0x400)

/-- A character inside a string. -/
def printChar (asciiOnly : Bool) (c : Char) : List Char :=
  if c = '"' then ['\\', '"']
  else if c = '\\' then ['\\', '\\']
  else if c = '\n' then ['\\', 'n']
  else if c = '\r' then ['\\', 'r']
  else if c = '\t' then ['\\', 't']
  else if c = '\x08' then ['\\', 'b']
  else if c = '\x0c' then ['\\', 'f']
  else if c.toNat < 0x20 ∨ (asciiOnly ∧ 0x7E < c.toNat) then escapePoint c.toNat
  else [c]

/-- The characters of a string, and what follows them. -/
def printChars (asciiOnly : Bool) : List Char → List Char → List Char
  | [], rest => rest
  | c :: cs, rest => printChar asciiOnly c ++ printChars asciiOnly cs rest

/-- A string between its quotes, and what follows it. -/
def printString (asciiOnly : Bool) (s : String) (rest : List Char) : List Char :=
  '"' :: printChars asciiOnly s.toList ('"' :: rest)

mutual

/-- A value whose items, if it has any, stand at `level + 1`, and what follows it. -/
def printAt (style : Style) (level : Nat) : Json → List Char → List Char
  | .null, rest => 'n' :: 'u' :: 'l' :: 'l' :: rest
  | .bool true, rest => 't' :: 'r' :: 'u' :: 'e' :: rest
  | .bool false, rest => 'f' :: 'a' :: 'l' :: 's' :: 'e' :: rest
  | .int i, rest => Text.decimal i ++ rest
  | .float d, rest => d.text ++ rest
  | .str s, rest => printString style.asciiOnly s rest
  | .arr [], rest => '[' :: ']' :: rest
  | .arr (v :: vs), rest =>
    '[' :: (style.margin (level + 1) ++
      printAt style (level + 1) v
        (printItems style (level + 1) vs (style.margin level ++ ']' :: rest)))
  | .obj [], rest => '\x7b' :: '\x7d' :: rest
  | .obj ((name, v) :: ms), rest =>
    '\x7b' :: (style.margin (level + 1) ++
      printString style.asciiOnly name (':' :: ' ' ::
        printAt style (level + 1) v
          (printMembers style (level + 1) ms (style.margin level ++ '\x7d' :: rest))))

/-- The items after the first one, and what follows them. -/
def printItems (style : Style) (level : Nat) : List Json → List Char → List Char
  | [], rest => rest
  | v :: vs, rest =>
    style.separator level ++ printAt style level v (printItems style level vs rest)

/-- The members after the first one, and what follows them. -/
def printMembers (style : Style) (level : Nat) : List (String × Json) → List Char → List Char
  | [], rest => rest
  | (name, v) :: ms, rest =>
    style.separator level ++
      printString style.asciiOnly name (':' :: ' ' ::
        printAt style level v (printMembers style level ms rest))

end

/-- The text of a value. -/
def print (style : Style) (v : Json) : List Char :=
  printAt style 0 v []

end Lineage.Json
