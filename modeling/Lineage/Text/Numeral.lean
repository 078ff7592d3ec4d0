/-
# Numerals

A numeral is a whole number written in decimal digits, with blanks around it, a
sign, and single low lines between digits, if one likes. `readNumeral` takes the
digits of any script of Unicode, and as many of them as a numeral may have.
`decimal` writes a number.

Key definitions: `digitValue`, `numeralLimit`, `readDigits`, `readNumeral`, `decimal`.
-/
import Lineage.Text.Blank

namespace Lineage.Text

/-- The digit zero of each script that has decimal digits; the other nine follow it. -/
def zeroDigits : List Nat :=
  [0x0030, 0x0660, 0x06F0, 0x07C0, 0x0966, 0x09E6, 0x0A66, 0x0AE6, 0x0B66, 0x0BE6, 0x0C66, 0x0CE6,
   0x0D66, 0x0DE6, 0x0E50, 0x0ED0, 0x0F20, 0x1040, 0x1090, 0x17E0, 0x1810, 0x1946, 0x19D0, 0x1A80,
   0x1A90, 0x1B50, 0x1BB0, 0x1C40, 0x1C50, 0xA620, 0xA8D0, 0xA900, 0xA9D0, 0xA9F0, 0xAA50, 0xABF0,
   0xFF10, 0x104A0, 0x10D30, 0x11066, 0x110F0, 0x11136, 0x111D0, 0x112F0, 0x11450, 0x114D0,
   0x11650, 0x116C0, 0x11730, 0x118E0, 0x11950, 0x11C50, 0x11D50, 0x11DA0, 0x16A60, 0x16AC0,
   0x16B50, 0x1D7CE, 0x1D7D8, 0x1D7E2, 0x1D7EC, 0x1D7F6, 0x1E140, 0x1E2F0, 0x1E950, 0x1FBF0]

/-- The value of a decimal digit of any script. -/
def digitValue (c : Char) : Option Nat :=
  (zeroDigits.find? fun z => z ≤ c.toNat && c.toNat ≤ z + 9).map (c.toNat - ·)

/-- The most digits that a numeral may have. -/
def numeralLimit : Nat := 4300

/-- Digits in which a low line may stand between two of them, read onto the
number `n` that the digits before them make. `afterDigit` says whether a digit
came last. -/
def readDigits (n : Nat) (afterDigit : Bool) : List Char → Option Nat
  | [] => if afterDigit then some n else none
  | c :: rest =>
    match digitValue c with
    | some d => readDigits (10 * n + d) true rest
    | none => if c = '_' && afterDigit then readDigits n false rest else none

/-- A number with an optional sign. -/
def readSigned : List Char → Option Int
  | '-' :: digits => (readDigits 0 false digits).map fun n => -(n : Int)
  | '+' :: digits => (readDigits 0 false digits).map fun n => (n : Int)
  | digits => (readDigits 0 false digits).map fun n => (n : Int)

/-- The blanks that may stand around a numeral: all but the information separators. -/
def isNumeralBlank (c : Char) : Bool :=
  isBlank c && !(0x1C ≤ c.toNat && c.toNat ≤ 0x1F)

/-- The whole number a text denotes. -/
def readNumeral (text : String) : Option Int :=
  if numeralLimit < text.toList.countP fun c => (digitValue c).isSome then none
  else readSigned (trim isNumeralBlank text.toList)

/-- A whole number in decimal digits, with a minus sign if it is negative. -/
def decimal : Int → List Char
  | .ofNat n => Nat.toDigits 10 n
  | .negSucc n => '-' :: Nat.toDigits 10 (n + 1)

end Lineage.Text
