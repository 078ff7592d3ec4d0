/-
# Quoted text

Messages show a text between quotes so that its ends and its invisible
characters can be seen. Single quotes are used unless the text holds a single
quote and no double quote. The backslash, the quote in use, and everything that
is not printable are escaped.

Key definitions: `quoted`.
-/
import Lineage.Text.Hex
import Lineage.Text.Printable

namespace Lineage.Text

/-- One character between quotes of the given kind. -/
def quotedChar (quote c : Char) : List Char :=
  if c = quote ∨ c = '\\' then ['\\', c]
  else if c = '\t' then ['\\', 't']
  else if c = '\n' then ['\\', 'n']
  else if c = '\r' then ['\\', 'r']
  else if isPrintable c then [c]
  else if c.toNat < 0x100 then '\\' :: 'x' :: hexDigits 2 c.toNat
  else if c.toNat < 0x10000 then '\\' :: 'u' :: hexDigits 4 c.toNat
  else '\\' :: 'U' :: hexDigits 8 c.toNat

/-- A text between quotes. -/
def quoted (text : String) : List Char :=
  let chars := text.toList
  let quote := if chars.contains '\'' && !chars.contains '"' then '"' else '\''
  quote :: (chars.flatMap (quotedChar quote) ++ [quote])

end Lineage.Text
