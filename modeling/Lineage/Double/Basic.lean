/-
# Double-precision numbers

A finite double-precision number is a sign, a mantissa below 2^53 and an
exponent of two that is -1074 or more; unless the exponent is the lowest one,
the mantissa has all its 53 bits. Zero keeps its sign. Numbers are compared by
value, and a decimal is read by rounding its exact value to the nearest number,
a tie going to the even mantissa; beyond the largest number there is no other.

Key definitions: `Double`, `Double.value`, `Double.ofDecimal`, `Double.toInt?`.
-/
namespace Lineage

/-- The finite number `±mantissa · 2 ^ exponent`. -/
structure Double where
  negative : Bool
  mantissa : Nat
  exponent : Int
  deriving DecidableEq, Repr

namespace Double

/-- The value without its sign. -/
def magnitude (d : Double) : Rat :=
  d.mantissa * 2 ^ d.exponent

/-- The value. -/
def value (d : Double) : Rat :=
  if d.negative then -d.magnitude else d.magnitude

/-- The integer of the same value. -/
def toInt? (d : Double) : Option Int :=
  if d.value.den = 1 then some d.value.num else none

/-- The largest `k` with `2 ^ k ≤ x`, for a positive `x`. -/
def binaryExponent (x : Rat) : Int :=
  let k : Int := (x.num.toNat.log2 : Int) - x.den.log2
  if 2 ^ k ≤ x then k else k - 1

/-- The integer nearest to `x`, which is not negative; of two, the even one. -/
def nearest (x : Rat) : Nat :=
  let n := x.floor.toNat
  let rest := x - n
  if rest < 1 / 2 then n
  else if 1 / 2 < rest then n + 1
  else if n % 2 = 0 then n else n + 1

/-- The first mantissa that has 53 bits, 2^52. -/
def lowestFull : Nat := 0x10000000000000

/-- The largest number of a sign. -/
def largest (negative : Bool) : Double :=
  ⟨negative, 2 * lowestFull - 1, 971⟩

/-- Zero, with a sign. -/
def zero (negative : Bool) : Double :=
  ⟨negative, 0, -1074⟩

/-- The number nearest to `±x`, for a positive `x`. -/
def ofRat (negative : Bool) (x : Rat) : Double :=
  let exponent := max (binaryExponent x - 52) (-1074)
  let mantissa := nearest (x / 2 ^ exponent)
  let d : Double :=
    if mantissa = 2 * lowestFull then ⟨negative, lowestFull, exponent + 1⟩
    else ⟨negative, mantissa, exponent⟩
  if d.exponent ≤ 971 then d else largest negative

/-- The number nearest to `±digits · 10 ^ exponent`. Decimals far outside the
range are answered without computing the power. -/
def ofDecimal (negative : Bool) (digits : Nat) (exponent : Int) : Double :=
  let top := (Nat.toDigits 10 digits).length + exponent
  if digits = 0 ∨ top < -400 then zero negative
  else if 400 < top then largest negative
  else ofRat negative (digits * 10 ^ exponent)

end Double
end Lineage
