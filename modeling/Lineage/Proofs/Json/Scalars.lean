/-
# Strings and whole numbers are read as they were printed

A printed string is read character by character: each one is an escape letter, the escape of
its code point, or stands for itself (`printChar_cases`), and reading it gives its code point
back, or the two surrogates that it was escaped as, which are joined again
(`readString_printChars`). A whole number is read up to the first character that cannot go
on with it (`readNumber_decimal`). Both hold in front of any text that follows.

Key definitions: `Json.units`, `Json.pointsOf`, `Json.EndsNumber`.
Key theorems: `Json.printChar_cases`, `Json.readString_printChars`, `Json.readNumber_decimal`.
-/
import Lineage.Json.Parser
import Lineage.Json.Printer
import Mathlib.Tactic.SplitIfs

namespace Lineage

namespace Text

theorem hexValue_digitChar : ∀ d < 16, hexValue (Nat.digitChar d) = some d := by decide

/-- Four digits are enough for sixteen bits. -/
theorem hexNumber_hexDigits {n : Nat} (h : n < 0x10000) :
    hexNumber 0 (hexDigits 4 n) = some n := by
  have value (m : Nat) : hexValue (Nat.digitChar (m % 16)) = some (m % 16) :=
    hexValue_digitChar _ (Nat.mod_lt m (by omega))
  simp only [hexDigits, List.nil_append, List.cons_append, hexNumber, value, Option.bind_some]
  congr 1
  omega

/-- Only zero is written with a leading zero. -/
theorem head?_toDigits_ne {n : Nat} (h : n ≠ 0) : (Nat.toDigits 10 n).head? ≠ some '0' := by
  induction n using Nat.strongRecOn with
  | _ n ih =>
    by_cases small : n < 10
    · rw [Nat.toDigits_of_lt_base small]
      simp only [List.head?_cons, ne_eq, Option.some.injEq]
      have digits : ∀ d < 10, d ≠ 0 → Nat.digitChar d ≠ '0' := by decide
      exact digits n small h
    · have upper := ih (n / 10) (by omega) (by omega)
      have filled : (Nat.toDigits 10 (n / 10)).head?.isSome := by simp [Nat.toDigits_ne_nil]
      rw [Nat.toDigits_of_base_le (by omega) (by omega), List.head?_append,
        Option.or_of_isSome filled]
      exact upper

theorem exists_toDigits (n : Nat) :
    ∃ c more, Nat.toDigits 10 n = c :: more ∧ c.isDigit = true := by
  obtain ⟨c, more, split⟩ := List.exists_cons_of_ne_nil (Nat.toDigits_ne_nil (n := n) (b := 10))
  have digit : c ∈ Nat.toDigits 10 n := by rw [split]; exact List.mem_cons_self
  exact ⟨c, more, split, Nat.isDigit_of_mem_toDigits (by omega) (by omega) digit⟩

end Text

theorem toNat_scalar (c : Char) :
    c.toNat < 0xD800 ∨ (0xDFFF < c.toNat ∧ c.toNat < 0x110000) :=
  c.valid

namespace Json

/-! ### Strings -/

section Strings

/-- A character is printed as an escape letter, as the escape of its code point, or as it is. -/
theorem printChar_cases (asciiOnly : Bool) (c : Char) :
    (∃ letter, printChar asciiOnly c = ['\\', letter] ∧ escaped? letter = some c ∧
      letter ≠ 'u' ∧ letter ≠ '\r' ∧ c.toNat ≤ 0x7E) ∨
    (printChar asciiOnly c = escapePoint c.toNat ∧ (0x7E < c.toNat → asciiOnly = true)) ∨
    (printChar asciiOnly c = [c] ∧ 0x20 ≤ c.toNat ∧ c ≠ '"' ∧ c ≠ '\\' ∧
      (asciiOnly = true → c.toNat ≤ 0x7E)) := by
  unfold printChar
  split_ifs with quote slash feed back tab bell form escape
  · exact .inl ⟨'"', rfl, by rw [quote]; rfl, by decide, by decide, by rw [quote]; decide⟩
  · exact .inl ⟨'\\', rfl, by rw [slash]; rfl, by decide, by decide, by rw [slash]; decide⟩
  · exact .inl ⟨'n', rfl, by rw [feed]; rfl, by decide, by decide, by rw [feed]; decide⟩
  · exact .inl ⟨'r', rfl, by rw [back]; rfl, by decide, by decide, by rw [back]; decide⟩
  · exact .inl ⟨'t', rfl, by rw [tab]; rfl, by decide, by decide, by rw [tab]; decide⟩
  · exact .inl ⟨'b', rfl, by rw [bell]; rfl, by decide, by decide, by rw [bell]; decide⟩
  · exact .inl ⟨'f', rfl, by rw [form]; rfl, by decide, by decide, by rw [form]; decide⟩
  · exact .inr (.inl ⟨rfl, fun high => escape.elim (fun low => by omega) And.left⟩)
  · refine .inr (.inr ⟨rfl, by omega, quote, slash, fun ascii => ?_⟩)
    have : ¬ 0x7E < c.toNat := fun high => escape (.inr ⟨ascii, high⟩)
    omega

variable (opened : List Char) {rest : List Char}

theorem readPoints_escapeUnit {n : Nat} (h : n < 0x10000) (hr : rest ≠ []) :
    readPoints opened (escapeUnit n ++ rest) =
      (readPoints opened rest).map fun (ns, r) => (n :: ns, r) := by
  obtain ⟨next, after, rfl⟩ := List.exists_cons_of_ne_nil hr
  have hex := Text.hexNumber_hexDigits h
  simp only [Text.hexDigits, List.nil_append, List.cons_append] at hex
  simp only [escapeUnit, Text.hexDigits, List.nil_append, List.cons_append, readPoints, hex]

/-- The units in which a code point is escaped. -/
def units (n : Nat) : List Nat :=
  if n < 0x10000 then [n]
  else [0xD800 + (n - 0x10000) / 0x400, 0xDC00 + (n - 0x10000) % 0x400]

/-- The code points that a printed character is read as. -/
def pointsOf (asciiOnly : Bool) (c : Char) : List Nat :=
  if asciiOnly then units c.toNat else [c.toNat]

theorem readPoints_escapePoint {n : Nat} (h : n < 0x110000) (hr : rest ≠ []) :
    readPoints opened (escapePoint n ++ rest) =
      (readPoints opened rest).map fun (ns, r) => (units n ++ ns, r) := by
  unfold escapePoint units
  split
  · rw [readPoints_escapeUnit opened (by omega) hr]
    rfl
  · have filled : escapeUnit (0xDC00 + (n - 0x10000) % 0x400) ++ rest ≠ [] := by
      simp [escapeUnit]
    rw [List.append_assoc, readPoints_escapeUnit opened (by omega) filled,
      readPoints_escapeUnit opened (by omega) hr]
    cases readPoints opened rest <;> rfl

theorem pointsOf_of_le {asciiOnly : Bool} {c : Char} (h : c.toNat ≤ 0x7E) :
    pointsOf asciiOnly c = [c.toNat] := by
  have small : c.toNat < 0x10000 := by omega
  unfold pointsOf units
  rw [if_pos small, ite_self]

theorem pointsOf_true (c : Char) : pointsOf true c = units c.toNat := if_pos rfl

theorem pointsOf_false (c : Char) : pointsOf false c = [c.toNat] := rfl

theorem readPoints_printChar (asciiOnly : Bool) (c : Char) (hr : rest ≠ []) :
    readPoints opened (printChar asciiOnly c ++ rest) =
      (readPoints opened rest).map fun (ns, r) => (pointsOf asciiOnly c ++ ns, r) := by
  obtain ⟨letter, printed, escape, notHex, -, low⟩ | ⟨printed, high⟩ |
    ⟨printed, visible, quote, slash, low⟩ := printChar_cases asciiOnly c
  · rw [printed, pointsOf_of_le low, List.cons_append, List.cons_append, readPoints, escape]
    · rfl
    · simpa using notHex
  · have points : pointsOf asciiOnly c = units c.toNat := by
      cases asciiOnly with
      | true => exact pointsOf_true c
      | false =>
        have low : ¬ 0x7E < c.toNat := fun h => Bool.false_ne_true (high h)
        rw [pointsOf_false, units, if_pos (by omega)]
    have scalar := toNat_scalar c
    rw [printed, points, readPoints_escapePoint opened (by omega) hr]
  · have points : pointsOf asciiOnly c = [c.toNat] := by
      cases asciiOnly with
      | true => exact pointsOf_of_le (low rfl)
      | false => rfl
    rw [printed, points, List.singleton_append, readPoints, if_neg (by omega)]
    · rfl
    · simpa using quote
    · simpa using slash

theorem printChars_eq (asciiOnly : Bool) (cs rest : List Char) :
    printChars asciiOnly cs rest = cs.flatMap (printChar asciiOnly) ++ rest := by
  induction cs with
  | nil => rfl
  | cons c cs ih => rw [printChars, ih, List.flatMap_cons, List.append_assoc]

theorem readPoints_printChars (asciiOnly : Bool) (cs rest : List Char) :
    readPoints opened (printChars asciiOnly cs ('"' :: rest)) =
      .ok (cs.flatMap (pointsOf asciiOnly), rest) := by
  induction cs with
  | nil => rw [printChars, readPoints]; rfl
  | cons c cs ih =>
    have filled : printChars asciiOnly cs ('"' :: rest) ≠ [] := by simp [printChars_eq]
    rw [printChars, readPoints_printChar opened asciiOnly c filled, ih]
    rfl

theorem joinSurrogates_cons {n : Nat} (h : n < 0xD800 ∨ 0xDFFF < n) (ns : List Nat) :
    joinSurrogates (n :: ns) = Char.ofNat n :: joinSurrogates ns := by
  cases ns with
  | nil =>
    have plain : ¬ (0xD800 ≤ n ∧ n ≤ 0xDFFF) := by omega
    simp only [joinSurrogates, if_neg plain]
  | cons m ns => rw [joinSurrogates, if_neg (by omega), if_neg (by omega)]

theorem joinSurrogates_pointsOf (asciiOnly : Bool) (c : Char) (ns : List Nat) :
    joinSurrogates (pointsOf asciiOnly c ++ ns) = c :: joinSurrogates ns := by
  have scalar := toNat_scalar c
  have single : joinSurrogates ([c.toNat] ++ ns) = c :: joinSurrogates ns := by
    rw [List.singleton_append, joinSurrogates_cons (by omega), Char.ofNat_toNat]
  unfold pointsOf units
  split_ifs with ascii small
  · exact single
  · have joined : 0x10000 + (0xD800 + (c.toNat - 0x10000) / 0x400 - 0xD800) * 0x400 +
        (0xDC00 + (c.toNat - 0x10000) % 0x400 - 0xDC00) = c.toNat := by omega
    simp only [List.cons_append, List.nil_append]
    rw [joinSurrogates, if_pos (by omega), joined, Char.ofNat_toNat]
  · exact single

theorem readString_printChars (asciiOnly : Bool) (s : String) (rest : List Char) :
    readString opened (printChars asciiOnly s.toList ('"' :: rest)) = .ok (s, rest) := by
  have joined : ∀ cs : List Char, joinSurrogates (cs.flatMap (pointsOf asciiOnly)) = cs := by
    intro cs
    induction cs with
    | nil => rfl
    | cons c cs ih => rw [List.flatMap_cons, joinSurrogates_pointsOf, ih]
  rw [readString, readPoints_printChars]
  show Except.ok (String.ofList (joinSurrogates _), rest) = _
  rw [joined, String.ofList_toList]

end Strings

/-! ### Whole numbers -/

/-- What follows a number does not go on with it. -/
def EndsNumber (rest : List Char) : Prop :=
  ∀ c, rest.head? = some c → c.isDigit = false ∧ c ≠ '.' ∧ c ≠ 'e' ∧ c ≠ 'E'

theorem endsNumber_nil : EndsNumber [] := fun _ h => by cases h

theorem endsNumber_cons {c : Char} (h : c.isDigit = false ∧ c ≠ '.' ∧ c ≠ 'e' ∧ c ≠ 'E')
    (rest : List Char) : EndsNumber (c :: rest) := by
  rintro d ⟨⟩
  exact h

section Numbers

variable {rest : List Char} (hr : EndsNumber rest)
include hr

theorem takeDigits_append {digits : List Char} (h : ∀ c ∈ digits, c.isDigit = true) :
    takeDigits (digits ++ rest) = (digits, rest) := by
  have stop : rest.takeWhile Char.isDigit = [] ∧ rest.dropWhile Char.isDigit = rest := by
    cases rest with
    | nil => exact ⟨rfl, rfl⟩
    | cons c rest => simp [(hr c rfl).1]
  rw [takeDigits, List.takeWhile_append_of_pos h, List.dropWhile_append_of_pos h, stop.1, stop.2,
    List.append_nil]

theorem takeWhole_toDigits (n : Nat) :
    takeWhole (Nat.toDigits 10 n ++ rest) = (Nat.toDigits 10 n, rest) := by
  have digits : ∀ c ∈ Nat.toDigits 10 n, c.isDigit = true :=
    fun c hc => Nat.isDigit_of_mem_toDigits (by omega) (by omega) hc
  by_cases zero : n = 0
  · rw [zero, Nat.toDigits_zero]
    rfl
  · obtain ⟨c, more, split, -⟩ := Text.exists_toDigits n
    have nonzero : c ≠ '0' := by
      have := Text.head?_toDigits_ne zero
      simpa [split] using this
    have all := takeDigits_append hr digits
    rw [split] at all ⊢
    rw [List.cons_append, takeWhole, ← List.cons_append, all]
    simpa using nonzero

theorem takeFraction_eq : takeFraction rest = ([], rest) := by
  unfold takeFraction
  split
  · exact absurd rfl (hr '.' rfl).2.1
  · rfl

theorem takeExponent_eq : takeExponent rest = (none, rest) := by
  unfold takeExponent
  split
  · have other := not_or.mpr (hr _ rfl).2.2
    rw [if_neg other]
  · rfl

theorem readNumber_toDigits {most n : Nat} (h : (Nat.toDigits 10 n).length ≤ most) :
    readNumber most (Nat.toDigits 10 n ++ rest) = .ok (.int n, rest) ∧
      readNumber most ('-' :: (Nat.toDigits 10 n ++ rest)) = .ok (.int (-n), rest) := by
  have whole := takeWhole_toDigits hr n
  have value := Nat.ofDigitChars_ten_toDigits (n := n)
  have fits : ¬ most < (Nat.toDigits 10 n).length := by omega
  obtain ⟨c, more, split, digit⟩ := Text.exists_toDigits n
  have unsigned : c ≠ '-' := fun minus => absurd (minus ▸ digit) (by decide)
  rw [split] at whole value fits ⊢
  rw [List.cons_append] at whole ⊢
  constructor
  · have other : ∀ r, c :: (more ++ rest) = '-' :: r → False := by simp [unsigned]
    simp only [readNumber, whole, takeFraction_eq hr, takeExponent_eq hr, if_neg fits, value]
    rfl
  · simp only [readNumber, whole, takeFraction_eq hr, takeExponent_eq hr, if_neg fits, value]
    rfl

/-- A whole number in decimal digits is read again. -/
theorem readNumber_decimal {most : Nat} {i : Int}
    (h : (Nat.toDigits 10 i.natAbs).length ≤ most) :
    readNumber most (Text.decimal i ++ rest) = .ok (.int i, rest) := by
  cases i with
  | ofNat n => exact (readNumber_toDigits hr h).1
  | negSucc n => exact (readNumber_toDigits hr h).2

end Numbers

end Json
end Lineage
