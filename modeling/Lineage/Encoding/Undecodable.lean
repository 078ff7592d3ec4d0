/-
# Undecodable bytes

Bytes that are no text in an encoding are told by the first sequence that is
none: where it is, which byte it starts with, and what is wrong with it.

Key definitions: `Undecodable`, `Undecodable.message`.
-/
import Lineage.Text.Hex

namespace Lineage.Encoding

/-- Why bytes do not encode a character. -/
inductive Defect where
  | badStart
  | badContinuation
  | cutOff
  | notAscii
  | halfUnit
  | loneLowSurrogate
  | loneHighSurrogate
  | other (reason : String)
  deriving DecidableEq, Repr

/-- A defect in words. -/
def Defect.message : Defect → String
  | .badStart => "invalid start byte"
  | .badContinuation => "invalid continuation byte"
  | .cutOff => "unexpected end of data"
  | .notAscii => "ordinal not in range(128)"
  | .halfUnit => "truncated data"
  | .loneLowSurrogate => "illegal encoding"
  | .loneHighSurrogate => "illegal UTF-16 surrogate"
  | .other reason => reason

/-- Bytes that do not encode a character, as the range `[start, stop)` of offsets,
with the first of them. -/
structure Undecodable where
  defect : Defect
  first : UInt8
  start : Nat
  stop : Nat
  deriving DecidableEq, Repr

/-- The undecodable bytes of an encoding in words. A single one is shown. -/
def Undecodable.message (encoding : String) (u : Undecodable) : String :=
  let bytes :=
    if u.stop = u.start + 1 then
      s!"byte 0x{String.ofList (Text.hexDigits 2 u.first.toNat)} in position {u.start}"
    else s!"bytes in position {u.start}-{u.stop - 1}"
  s!"'{encoding}' codec can't decode {bytes}: {u.defect.message}"

end Lineage.Encoding
