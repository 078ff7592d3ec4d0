/-
# UTF-8

A character takes one to four bytes. The first byte tells how many follow and
each of those is between 0x80 and 0xBF, with a narrower range for the second
byte where the sequence would otherwise be overlong, a surrogate, or beyond the
last code point. What breaks a text is reported as the bytes from the start of
the bad sequence up to the first byte that cannot belong to it.

Key definitions: `Utf8.encode`, `Utf8.decode`.
-/
import Lineage.Encoding.Undecodable

namespace Lineage.Encoding

namespace Utf8

/-- The bytes of a character. -/
def encodeChar (c : Char) : List UInt8 :=
  let n := c.toNat
  if n < 0x80 then [n.toUInt8]
  else if n < 0x800 then [(0xC0 + n / 64).toUInt8, (0x80 + n % 64).toUInt8]
  else if n < 0x10000 then
    [(0xE0 + n / 4096).toUInt8, (0x80 + n / 64 % 64).toUInt8, (0x80 + n % 64).toUInt8]
  else
    [(0xF0 + n / 262144).toUInt8, (0x80 + n / 4096 % 64).toUInt8, (0x80 + n / 64 % 64).toUInt8,
      (0x80 + n % 64).toUInt8]

/-- The bytes of a text. -/
def encode (text : List Char) : List UInt8 :=
  text.flatMap encodeChar

/-- Whether a byte can stand after the second place of a sequence. -/
def isTail (b : UInt8) : Bool :=
  0x80 ≤ b && b ≤ 0xBF

/-- Whether a byte can stand in the second place, after `a`. -/
def isSecond (a b : UInt8) : Bool :=
  if a = 0xE0 then 0xA0 ≤ b && b ≤ 0xBF
  else if a = 0xED then 0x80 ≤ b && b ≤ 0x9F
  else if a = 0xF0 then 0x90 ≤ b && b ≤ 0xBF
  else if a = 0xF4 then 0x80 ≤ b && b ≤ 0x8F
  else isTail b

/-- The character that a first byte with `lead` of its bits and the bytes after it make. -/
def join (lead : Nat) (tail : List UInt8) : Char :=
  Char.ofNat (tail.foldl (fun n b => 64 * n + b.toNat % 64) lead)

/-- The sequence that starts with `a` at offset `i` and goes on for `size` bytes,
of which `tail` does not continue it. -/
def brokenAt (i : Nat) (a : UInt8) (size : Nat) (tail : List UInt8) : Undecodable :=
  ⟨if tail = [] then .cutOff else .badContinuation, a, i, i + size⟩

/-- The text of the bytes from offset `i` on. -/
def decodeFrom (i : Nat) : List UInt8 → Except Undecodable (List Char)
  | [] => .ok []
  | a :: bytes =>
    if a < 0x80 then (decodeFrom (i + 1) bytes).map (join a.toNat [] :: ·)
    else if a < 0xC2 then .error ⟨.badStart, a, i, i + 1⟩
    else if a < 0xE0 then
      match bytes with
      | [] => .error (brokenAt i a 1 [])
      | b :: bytes =>
        if isTail b then (decodeFrom (i + 2) bytes).map (join (a.toNat % 32) [b] :: ·)
        else .error (brokenAt i a 1 (b :: bytes))
    else if a < 0xF0 then
      match bytes with
      | [] => .error (brokenAt i a 1 [])
      | b :: bytes =>
        if isSecond a b then
          match bytes with
          | [] => .error (brokenAt i a 2 [])
          | c :: bytes =>
            if isTail c then (decodeFrom (i + 3) bytes).map (join (a.toNat % 16) [b, c] :: ·)
            else .error (brokenAt i a 2 (c :: bytes))
        else .error (brokenAt i a 1 (b :: bytes))
    else if a < 0xF5 then
      match bytes with
      | [] => .error (brokenAt i a 1 [])
      | b :: bytes =>
        if isSecond a b then
          match bytes with
          | [] => .error (brokenAt i a 2 [])
          | c :: bytes =>
            if isTail c then
              match bytes with
              | [] => .error (brokenAt i a 3 [])
              | d :: bytes =>
                if isTail d then
                  (decodeFrom (i + 4) bytes).map (join (a.toNat % 8) [b, c, d] :: ·)
                else .error (brokenAt i a 3 (d :: bytes))
            else .error (brokenAt i a 2 (c :: bytes))
        else .error (brokenAt i a 1 (b :: bytes))
    else .error ⟨.badStart, a, i, i + 1⟩

/-- The text that bytes encode. -/
def decode (bytes : List UInt8) : Except Undecodable (List Char) :=
  decodeFrom 0 bytes

end Utf8
end Lineage.Encoding
