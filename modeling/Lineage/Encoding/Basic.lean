/-
# Character encodings

An encoding makes a text of the whole content of a file, or tells the first bytes that it can
make nothing of. This is all that a file needs of it, so a file may be read with any decoder.
Four common ones are given here, and found by their names however these are spelt. A name that
leads to no decoder matters only once there is a byte to decode.

Key definitions: `Encoding`, `Encoding.decode`, `Encoding.ofName`.
-/
import Lineage.Encoding.Utf8

namespace Lineage

/-- Why bytes have no text. -/
inductive Encoding.Failure where
  | undecodable (encoding : String) (sequence : Encoding.Undecodable)
  | unknown (name : String)
  deriving DecidableEq, Repr

/-- A character encoding, as the decoder of bytes that it is. -/
structure Encoding where
  decoder : List UInt8 → Except Encoding.Failure (List Char)

namespace Encoding

/-- The text that bytes encode. No bytes are the empty text in every encoding. -/
def decode (encoding : Encoding) (bytes : List UInt8) : Except Failure (List Char) :=
  if bytes = [] then .ok [] else encoding.decoder bytes

/-! ### Decoders -/

/-- One character a byte, its code point. -/
def decodeLatin1 (bytes : List UInt8) : List Char :=
  bytes.map fun b => Char.ofNat b.toNat

/-- One character a byte, below 0x80, from offset `i` on. -/
def decodeAscii (i : Nat) : List UInt8 → Except Undecodable (List Char)
  | [] => .ok []
  | b :: bytes =>
    if b < 0x80 then (decodeAscii (i + 1) bytes).map (Char.ofNat b.toNat :: ·)
    else .error ⟨.notAscii, b, i, i + 1⟩

/-- The 16-bit unit of two bytes, the low one first. -/
def unit16 (low high : UInt8) : Nat :=
  low.toNat + 256 * high.toNat

/-- Units of two bytes, the low byte first, from offset `i` on. A high and a low
surrogate make one character. A surrogate that lacks its partner is bad by
itself, except that a high one without a whole unit after it is bad together
with all that is left. -/
def decodeUtf16le (i : Nat) : List UInt8 → Except Undecodable (List Char)
  | [] => .ok []
  | [b] => .error ⟨.halfUnit, b, i, i + 1⟩
  | low :: high :: bytes =>
    let u := unit16 low high
    if u < 0xD800 ∨ 0xDFFF < u then
      (decodeUtf16le (i + 2) bytes).map (Char.ofNat u :: ·)
    else if 0xDC00 ≤ u then .error ⟨.loneLowSurrogate, low, i, i + 2⟩
    else
      match bytes with
      | [] => .error ⟨.cutOff, low, i, i + 2⟩
      | [_] => .error ⟨.cutOff, low, i, i + 3⟩
      | low' :: high' :: bytes =>
        let v := unit16 low' high'
        if 0xDC00 ≤ v ∧ v ≤ 0xDFFF then
          (decodeUtf16le (i + 4) bytes).map
            (Char.ofNat (0x10000 + (u - 0xD800) * 0x400 + (v - 0xDC00)) :: ·)
        else .error ⟨.loneHighSurrogate, low, i, i + 2⟩

/-- An encoding with a name of its own, from a decoder that finds the bytes it stops at. -/
def ofDecoder (name : String) (decoder : List UInt8 → Except Undecodable (List Char)) :
    Encoding :=
  ⟨fun bytes => (decoder bytes).mapError (.undecodable name)⟩

def utf8 : Encoding := ofDecoder "utf-8" Utf8.decode

def latin1 : Encoding := ⟨fun bytes => .ok (decodeLatin1 bytes)⟩

def ascii : Encoding := ofDecoder "ascii" (decodeAscii 0)

def utf16le : Encoding := ofDecoder "utf-16-le" (decodeUtf16le 0)

/-- An encoding that there is no decoder for. -/
def unknown (name : String) : Encoding := ⟨fun _ => .error (.unknown name)⟩

/-! ### Names -/

/-- A name in small letters, with one underscore for what stands between its words. Dots
belong to words. `started` tells whether there is a word before, and `apart` whether
something stands in between. -/
def spelling (started apart : Bool) : List Char → List Char
  | [] => []
  | c :: cs =>
    if c.isAlphanum || c = '.' then
      let word := c.toLower :: spelling true false cs
      if started && apart then '_' :: word else word
    else spelling started true cs

/-- The encodings that have names, each with the one it is called by and its other ones. -/
def named : List (Encoding × String × List String) :=
  [(utf8, "utf_8", ["u8", "utf", "utf8", "utf8_ucs2", "utf8_ucs4", "cp65001"]),
   (latin1, "latin_1", ["8859", "cp819", "csisolatin1", "ibm819", "iso8859", "iso8859_1",
     "iso_8859_1", "iso_8859_1_1987", "iso_ir_100", "l1", "latin", "latin1"]),
   (ascii, "ascii", ["646", "ansi_x3.4_1968", "ansi_x3_4_1968", "ansi_x3.4_1986", "cp367",
     "csascii", "ibm367", "iso646_us", "iso_646.irv_1991", "iso_ir_6", "us", "us_ascii"]),
   (utf16le, "utf_16_le", ["unicodelittleunmarked", "utf_16le"])]

/-- The encoding of a name. In the other names an underscore may be written as a dot. -/
def ofName (name : String) : Encoding :=
  let spelt := spelling false false name.toList
  let undotted := String.ofList (spelt.map fun c => if c = '.' then '_' else c)
  let spelt := String.ofList spelt
  let found := named.find? fun (_, own, others) =>
    spelt == own || others.contains spelt || others.contains undotted
  (found.map Prod.fst).getD (unknown name)

end Encoding
end Lineage
