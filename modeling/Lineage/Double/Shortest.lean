/-
# The shortest decimal that reads back

A double-precision number is written with the fewest significant digits that
read back as the same number; of two such decimals the nearer one is taken, and
of two equally near ones the even one. Between 10^-4 and 10^16 the digits are
written out with a point, and a whole number keeps `.0`; other magnitudes take
an exponent of at least two digits.

Key definitions: `Double.reads`, `Double.onGrid?`, `Double.shortest`, `Double.text`.
-/
import Lineage.Double.Basic
import Lineage.Text.Numeral

namespace Lineage.Double

/-- The lower end of the values that round to this number. Below a power of two
the numbers lie twice as close. -/
def lowerEnd (d : Double) : Rat :=
  if d.mantissa = lowestFull ∧ -1074 < d.exponent then
    (4 * d.mantissa - 1) * 2 ^ (d.exponent - 2)
  else (2 * d.mantissa - 1) * 2 ^ (d.exponent - 1)

/-- The upper end of the values that round to this number. -/
def upperEnd (d : Double) : Rat :=
  (2 * d.mantissa + 1) * 2 ^ (d.exponent - 1)

/-- Whether a positive value rounds to this number; the ends do if the mantissa is even. -/
def reads (d : Double) (x : Rat) : Bool :=
  if d.mantissa % 2 = 0 then d.lowerEnd ≤ x && x ≤ d.upperEnd
  else d.lowerEnd < x && x < d.upperEnd

/-- The multiple of `10 ^ g` that stands for this number, if one of the two next
to its value reads back. -/
def onGrid? (d : Double) (g : Int) : Option Nat :=
  let y := d.magnitude / 10 ^ g
  let low := y.floor.toNat
  match d.reads (low * 10 ^ g), d.reads ((low + 1 : Nat) * 10 ^ g) with
  | false, false => none
  | true, false => some low
  | false, true => some (low + 1)
  | true, true => some (nearest y)

/-- The largest `k` with `10 ^ k ≤ x`, for a positive `x`. -/
def decimalExponent (x : Rat) : Int :=
  if 1 ≤ x then (Nat.toDigits 10 x.floor.toNat).length - 1
  else -(Nat.toDigits 10 ((1 / x).ceil.toNat - 1)).length

/-- The shortest decimal of a positive magnitude, as `(n, g)` for `n · 10 ^ g`.
Seventeen digits always read back. -/
def shortest (d : Double) : Nat × Int :=
  let top := decimalExponent d.magnitude
  let grids := (List.range 17).map fun k : Nat => top - k
  (grids.findSome? fun g => (d.onGrid? g).map (·, g)).getD (0, 0)

/-- An exponent with its sign and at least two digits. -/
def exponentText (e : Int) : List Char :=
  let digits := Nat.toDigits 10 e.natAbs
  (if e < 0 then '-' else '+') :: (if digits.length < 2 then '0' :: digits else digits)

/-- Significant digits laid out where the first one stands for `10 ^ e`. -/
def layOut (digits : List Char) (e : Int) : List Char :=
  if -4 ≤ e ∧ e < 0 then '0' :: '.' :: (List.replicate (-e - 1).toNat '0' ++ digits)
  else if 0 ≤ e ∧ e < 16 then
    let whole := e.toNat + 1
    let padded := digits ++ List.replicate (whole - digits.length) '0'
    let fraction := padded.drop whole
    padded.take whole ++ '.' :: (if fraction = [] then ['0'] else fraction)
  else
    match digits with
    | [] => []
    | [d] => d :: 'e' :: exponentText e
    | d :: rest => d :: '.' :: (rest ++ 'e' :: exponentText e)

/-- The text of a number. -/
def text (d : Double) : List Char :=
  let body :=
    if d.mantissa = 0 then ['0', '.', '0']
    else
      let (n, g) := d.shortest
      let digits := Nat.toDigits 10 n
      layOut (digits.reverse.dropWhile (· == '0')).reverse (g + digits.length - 1)
  if d.negative then '-' :: body else body

end Lineage.Double
