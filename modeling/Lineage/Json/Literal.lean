/-
# Values in messages

Messages show a value in the notation of a script: `None`, `True` and `False`
for the constants, quoted text, and brackets around items.

Key definitions: `Json.literal`.
-/
import Lineage.Json.Basic
import Lineage.Double.Shortest
import Lineage.Text.Quoted

namespace Lineage.Json

mutual

/-- A value as messages show it. -/
def literal : Json → List Char
  | .null => ['N', 'o', 'n', 'e']
  | .bool true => ['T', 'r', 'u', 'e']
  | .bool false => ['F', 'a', 'l', 's', 'e']
  | .int i => Text.decimal i
  | .float d => d.text
  | .str s => Text.quoted s
  | .arr [] => ['[', ']']
  | .arr (v :: vs) => '[' :: (literal v ++ literalItems vs ++ [']'])
  | .obj [] => ['\x7b', '\x7d']
  | .obj ((name, v) :: ms) =>
    '\x7b' :: (Text.quoted name ++ ':' :: ' ' :: (literal v ++ literalMembers ms ++ ['\x7d']))

/-- The items after the first one. -/
def literalItems : List Json → List Char
  | [] => []
  | v :: vs => ',' :: ' ' :: (literal v ++ literalItems vs)

/-- The members after the first one. -/
def literalMembers : List (String × Json) → List Char
  | [] => []
  | (name, v) :: ms =>
    ',' :: ' ' :: (Text.quoted name ++ ':' :: ' ' :: (literal v ++ literalMembers ms))

end

end Lineage.Json
