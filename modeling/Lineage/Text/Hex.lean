/-
# Hexadecimal digits

Code points inside escapes, and bytes in listings, are written with lower-case
hexadecimal digits of a fixed number; either case is read. Blanks may stand
between the bytes of a listing.

Key definitions: `hexDigits`, `hexNumber`, `hexBytes`.
-/
namespace Lineage.Text

/-- The last `width` hexadecimal digits of a number. -/
def hexDigits : (width : Nat) → Nat → List Char
  | 0, _ => []
  | width + 1, n => hexDigits width (n / 16) ++ [Nat.digitChar (n % 16)]

/-- The value of a hexadecimal digit. -/
def hexValue (c : Char) : Option Nat :=
  if '0' ≤ c ∧ c ≤ '9' then some (c.toNat - '0'.toNat)
  else if 'a' ≤ c ∧ c ≤ 'f' then some (c.toNat - 'a'.toNat + 10)
  else if 'A' ≤ c ∧ c ≤ 'F' then some (c.toNat - 'A'.toNat + 10)
  else none

/-- The number that hexadecimal digits denote, read onto `n`. -/
def hexNumber (n : Nat) : List Char → Option Nat
  | [] => some n
  | c :: rest => (hexValue c).bind fun d => hexNumber (16 * n + d) rest

/-- Whether a character may stand between two bytes of a listing. -/
def isListingBlank (c : Char) : Bool :=
  c == ' ' || ('\t' ≤ c && c ≤ '\r')

/-- The bytes of a listing, two digits each. -/
def hexBytes : List Char → Option (List UInt8)
  | [] => some []
  | [c] => if isListingBlank c then some [] else none
  | a :: b :: rest =>
    if isListingBlank a then hexBytes (b :: rest)
    else (hexNumber 0 [a, b]).bind fun n => (hexBytes rest).map (n.toUInt8 :: ·)

end Lineage.Text
