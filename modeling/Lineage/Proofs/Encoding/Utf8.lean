/-
# A text is decoded from its bytes

A character takes one to four bytes, which are decoded as that character whatever bytes follow
(`decodeFrom_encodeChar`). So the bytes of a text decode as the text, from any offset
(`decodeFrom_encode`), and so they do where a file is read in this encoding (`decoded_encode`).

Key theorems: `Encoding.Utf8.decodeFrom_encodeChar`, `Encoding.Utf8.decodeFrom_encode`,
`File.decoded_encode`.
-/
import Lineage.File
import Mathlib.Tactic.SplitIfs

namespace Lineage
namespace Encoding.Utf8

theorem toNat_toUInt8 {n : Nat} (h : n < 256) : n.toUInt8.toNat = n :=
  UInt8.toNat_ofNat_of_lt h

theorem isTail_toUInt8 {n : Nat} (low : 0x80 ≤ n) (high : n ≤ 0xBF) :
    isTail n.toUInt8 = true := by
  have byte := toNat_toUInt8 (n := n) (by omega)
  simp only [isTail, Bool.and_eq_true, decide_eq_true_eq, UInt8.le_iff_toNat_le, byte,
    UInt8.reduceToNat]
  exact ⟨low, high⟩

/-- A second byte that is not too low or too high for the first one. -/
theorem isSecond_toUInt8 {m n : Nat} (hm : m < 256) (low : 0x80 ≤ n) (high : n ≤ 0xBF)
    (long : m = 0xE0 → 0xA0 ≤ n) (surrogate : m = 0xED → n ≤ 0x9F) (longer : m = 0xF0 → 0x90 ≤ n)
    (beyond : m = 0xF4 → n ≤ 0x8F) : isSecond m.toUInt8 n.toUInt8 = true := by
  have first := toNat_toUInt8 hm
  have second := toNat_toUInt8 (n := n) (by omega)
  simp only [isSecond, isTail, ← UInt8.toNat_inj, UInt8.le_iff_toNat_le, first, second,
    UInt8.reduceToNat]
  split_ifs <;> simp only [Bool.and_eq_true, decide_eq_true_eq] <;> omega

theorem join_tail {m n : Nat} (h : n < 64) (more : List UInt8) :
    join m ((0x80 + n).toUInt8 :: more) = join (64 * m + n) more := by
  have byte := toNat_toUInt8 (n := 0x80 + n) (by omega)
  have bits : (0x80 + n) % 64 = n := by omega
  rw [join, join, List.foldl_cons, byte, bits]

theorem join_nil (n : Nat) : join n [] = Char.ofNat n := rfl

/-! ### Sequences by their size -/

section Sizes

variable (i : Nat) {a b c d : UInt8} (rest : List UInt8)

theorem decodeFrom_one (ha : a.toNat < 0x80) :
    decodeFrom i (a :: rest) = (decodeFrom (i + 1) rest).map (join a.toNat [] :: ·) := by
  rw [decodeFrom.eq_def]
  simp only [UInt8.lt_iff_toNat_lt, UInt8.reduceToNat]
  rw [if_pos ha]

theorem decodeFrom_two (low : 0xC2 ≤ a.toNat) (high : a.toNat < 0xE0) (hb : isTail b = true) :
    decodeFrom i (a :: b :: rest) =
      (decodeFrom (i + 2) rest).map (join (a.toNat % 32) [b] :: ·) := by
  rw [decodeFrom.eq_def]
  simp only [UInt8.lt_iff_toNat_lt, UInt8.reduceToNat]
  rw [if_neg (by omega), if_neg (by omega), if_pos (by omega), if_pos hb]

theorem decodeFrom_three (low : 0xE0 ≤ a.toNat) (high : a.toNat < 0xF0)
    (hb : isSecond a b = true) (hc : isTail c = true) :
    decodeFrom i (a :: b :: c :: rest) =
      (decodeFrom (i + 3) rest).map (join (a.toNat % 16) [b, c] :: ·) := by
  rw [decodeFrom.eq_def]
  simp only [UInt8.lt_iff_toNat_lt, UInt8.reduceToNat]
  rw [if_neg (by omega), if_neg (by omega), if_neg (by omega), if_pos (by omega), if_pos hb,
    if_pos hc]

theorem decodeFrom_four (low : 0xF0 ≤ a.toNat) (high : a.toNat < 0xF5)
    (hb : isSecond a b = true) (hc : isTail c = true) (hd : isTail d = true) :
    decodeFrom i (a :: b :: c :: d :: rest) =
      (decodeFrom (i + 4) rest).map (join (a.toNat % 8) [b, c, d] :: ·) := by
  rw [decodeFrom.eq_def]
  simp only [UInt8.lt_iff_toNat_lt, UInt8.reduceToNat]
  rw [if_neg (by omega), if_neg (by omega), if_neg (by omega), if_neg (by omega),
    if_pos (by omega), if_pos hb, if_pos hc, if_pos hd]

end Sizes

/-- The bytes of a character are decoded as that character. -/
theorem decodeFrom_encodeChar (i : Nat) (c : Char) (rest : List UInt8) :
    decodeFrom i (encodeChar c ++ rest) =
      (decodeFrom (i + (encodeChar c).length) rest).map (c :: ·) := by
  have scalar : c.toNat < 0xD800 ∨ (0xDFFF < c.toNat ∧ c.toNat < 0x110000) := c.valid
  have back : Char.ofNat c.toNat = c := Char.ofNat_toNat c
  revert scalar back
  unfold encodeChar
  generalize c.toNat = n
  intro scalar back
  simp only
  split_ifs with one two three
  · have first := toNat_toUInt8 (n := n) (by omega)
    rw [List.singleton_append, decodeFrom_one i rest (by omega), first, join_nil, back,
      List.length_singleton]
  · have first := toNat_toUInt8 (n := 0xC0 + n / 64) (by omega)
    have joined : 64 * ((0xC0 + n / 64) % 32) + n % 64 = n := by omega
    rw [List.cons_append, List.singleton_append, decodeFrom_two i rest (by omega) (by omega)
      (isTail_toUInt8 (by omega) (by omega)), first, join_tail (by omega), join_nil, joined, back]
    rfl
  · have first := toNat_toUInt8 (n := 0xE0 + n / 4096) (by omega)
    have joined : 64 * (64 * ((0xE0 + n / 4096) % 16) + n / 64 % 64) + n % 64 = n := by omega
    rw [List.cons_append, List.cons_append, List.singleton_append, decodeFrom_three i rest
      (by omega) (by omega) (isSecond_toUInt8 (by omega) (by omega) (by omega) (by omega)
      (by omega) (by omega) (by omega)) (isTail_toUInt8 (by omega) (by omega)), first,
      join_tail (by omega), join_tail (by omega), join_nil, joined, back]
    rfl
  · have first := toNat_toUInt8 (n := 0xF0 + n / 262144) (by omega)
    have joined : 64 * (64 * (64 * ((0xF0 + n / 262144) % 8) + n / 4096 % 64) + n / 64 % 64) +
        n % 64 = n := by omega
    rw [List.cons_append, List.cons_append, List.cons_append, List.singleton_append,
      decodeFrom_four i rest (by omega) (by omega) (isSecond_toUInt8 (by omega) (by omega)
      (by omega) (by omega) (by omega) (by omega) (by omega))
      (isTail_toUInt8 (by omega) (by omega)) (isTail_toUInt8 (by omega) (by omega)), first,
      join_tail (by omega), join_tail (by omega), join_tail (by omega), join_nil, joined, back]
    rfl

theorem encode_eq_nil {text : List Char} (h : encode text = []) : text = [] := by
  cases text with
  | nil => rfl
  | cons c text =>
    have nothing : encodeChar c = [] := (List.append_eq_nil_iff.mp h).1
    unfold encodeChar at nothing
    simp only at nothing
    split_ifs at nothing

/-- The bytes of a text are decoded as that text, from any offset. -/
theorem decodeFrom_encode (i : Nat) (text : List Char) : decodeFrom i (encode text) = .ok text := by
  induction text generalizing i with
  | nil => rfl
  | cons c text ih =>
    rw [encode, List.flatMap_cons, decodeFrom_encodeChar, ← encode, ih]
    rfl

end Encoding.Utf8

/-- A file of UTF-8 bytes holds the text they encode. -/
theorem File.decoded_encode (text : List Char) :
    File.decoded .utf8 (Encoding.Utf8.encode text) = .ok text := by
  have decode : Encoding.decode .utf8 (Encoding.Utf8.encode text) = .ok text := by
    unfold Encoding.decode
    split_ifs with nothing
    · rw [Encoding.Utf8.encode_eq_nil nothing]
    · unfold Encoding.utf8 Encoding.ofDecoder
      simp only [Encoding.Utf8.decode, Encoding.Utf8.decodeFrom_encode]
      rfl
  rw [decoded, decode]

end Lineage
