/-
# Plain numerals

A plain numeral is a whole number in the digits `0` to `9`. In its strict form it
has a minus sign if need be and no leading zeros. A text that is not in strict
form is tidied once and read again: blanks around it go, then a plus sign, then
leading zeros with the low lines among them, then a fraction of zeros, then low
lines that stand alone between two other characters. A minus sign stays in front
of what is tidied, and without one a minus sign may follow the leading zeros.

A number that is strict but for having too many digits is told apart from a text
that is no number.

Key definitions: `Reading`, `readStrict`, `tidy`, `readPlainNumeral`.
-/
import Lineage.Text.Numeral

namespace Lineage.Text

/-- What comes of reading a text as a whole number. -/
inductive Reading where
  | whole (i : Int)
  | malformed
  | tooLong
  deriving DecidableEq, Repr

/-- Whether a character is one of the digits that can start a number. -/
def isLeadingDigit (c : Char) : Bool :=
  c.isDigit && c != '0'

/-- A number in strict form. One that has too many digits has them whatever comes
after it. -/
def readStrict (text : List Char) : Reading :=
  let (negative, unsigned) : Bool × List Char :=
    match text with
    | '-' :: rest => (true, rest)
    | _ => (false, text)
  match unsigned with
  | ['0'] => .whole 0
  | '0' :: _ => .malformed
  | _ =>
    let digits := unsigned.takeWhile Char.isDigit
    if digits = [] then .malformed
    else if numeralLimit < digits.length then .tooLong
    else if digits.length < unsigned.length then .malformed
    else
      let n : Int := Nat.ofDigitChars 10 digits 0
      .whole (if negative then -n else n)

/-- A text without a plus sign at its start, after which no minus sign may follow. -/
def dropPlus : List Char → Option (List Char)
  | '+' :: '-' :: _ => none
  | '+' :: rest => some rest
  | text => some text

/-- What comes after leading zeros, the last of which, or the low line after it,
is `last`. That one is kept where nothing or a point follows. -/
def skipZeros (last : Char) : List Char → Option (List Char)
  | [] => some [last]
  | c :: rest =>
    if c = '0' ∨ c = '_' then skipZeros c rest
    else if isLeadingDigit c || c = '-' then some (c :: rest)
    else if c = '.' then some (last :: c :: rest)
    else none

/-- A text without its leading zeros. -/
def dropZeros : List Char → Option (List Char)
  | [] => none
  | c :: rest =>
    if c = '0' then skipZeros c rest
    else if isLeadingDigit c then some (c :: rest)
    else none

/-- A text up to its first point, after which zeros and only zeros have to stand. -/
def dropFraction (text : List Char) : Option (List Char) :=
  match text.dropWhile (· != '.') with
  | [] => some text
  | _ :: zeros =>
    if zeros ≠ [] && zeros.all (· == '0') then some (text.takeWhile (· != '.')) else none

/-- A text without its low lines, if each of them stands alone between two other
characters. -/
def dropLowLines (text : List Char) : List Char :=
  if text.head? = some '_' || text.getLast? = some '_' ||
      (text.zip (text.drop 1)).any (· == ('_', '_')) then text
  else text.filter (· != '_')

/-- A text without a sign in a form closer to the strict one. -/
def tidyUnsigned (text : List Char) : Option (List Char) := do
  return dropLowLines (← dropFraction (← dropZeros text))

/-- A text in a form closer to the strict one. -/
def tidy (text : List Char) : Option (List Char) := do
  match ← dropPlus (trim isNumeralBlank text) with
  | '-' :: unsigned => return '-' :: (← tidyUnsigned unsigned)
  | unsigned => tidyUnsigned unsigned

/-- The whole number a text denotes. -/
def readPlainNumeral (text : String) : Reading :=
  match readStrict text.toList with
  | .malformed =>
    match (tidy text.toList).map readStrict with
    | some (.whole i) => .whole i
    | _ => .malformed
  | reading => reading

end Lineage.Text
