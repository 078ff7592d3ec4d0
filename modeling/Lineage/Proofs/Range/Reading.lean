/-
# What a range reads

A look-up finds characters that end no line. So a range begins right before such a character and
ends right behind one, and there a text may be cut without changing where its lines end. What the
range reads has the lines of the file from the one in which it begins up to the one in which it
ends, of which the first is cut at the front and the last at the back (`Range.ReadsAs`). From the
first column of a line to the last character of another one a range reads whole lines, but for
the terminator of the last one.

Key definitions: `Position.FoundIn`, `Range.parts`, `Range.ReadsAs`.
Key theorems: `Position.FoundIn.standsIn`, `Range.exists_parts`, `Range.readsAs_slice`,
`Range.content_lines`.
-/
import Lineage.Proofs.Text.Cutting
import Lineage.Proofs.Translation.Ordering

namespace Lineage

open Text (PlainAt lineStart plainLines splitLines stripEnd)

/-- A position that a look-up in a file has found, when the file had a given text: by line and
column, by offset, or at the end of a line. -/
inductive Position.FoundIn (p : Position) (f : File) (text : List Char) : Prop where
  | byColumn {a : Archive} {line column tab : Int} (read : f.text.answer a = .ok text)
      (found : (f.positionAt line column tab).answer a = .ok (some p))
  | byOffset {a : Archive} {offset tab : Int} (read : f.text.answer a = .ok text)
      (found : (f.positionOf offset tab).answer a = .ok (some p))
  | atEnd {a : Archive} {line tab : Int} (read : f.text.answer a = .ok text)
      (found : (f.endOfLine line tab).answer a = .ok (some p))

/-- Of the lines of a text the parts that lie in a range, given the lines in which it begins and
ends. -/
def Range.parts (r : Range) (lines : List Text.Line) (first last : Text.Line) : List Text.Line :=
  if r.first.line = r.last.line then
    [(first.take (r.last.lineOffset.toNat + 1)).drop r.first.lineOffset.toNat]
  else
    first.drop r.first.lineOffset.toNat ::
      ((lines.take (r.last.line - 1).toNat).drop r.first.line.toNat ++
        [last.take (r.last.lineOffset.toNat + 1)])

/-- What a range of a text reads: as many characters as it is long, the first and the last of
which end no line, and as its lines the parts of those lines of the text that it runs through. -/
structure Range.ReadsAs (r : Range) (text content : List Char) : Prop where
  length : (content.length : Int) = r.length
  begins : PlainAt content 0
  ends : PlainAt content (content.length - 1)
  count : ((splitLines content).length : Int) = r.last.line - r.first.line + 1
  lines : ∃ first last, (splitLines text)[(r.first.line - 1).toNat]? = some first ∧
    (splitLines text)[(r.last.line - 1).toNat]? = some last ∧
      splitLines content = r.parts (splitLines text) first last

/-! ### What look-ups find -/

section Find

variable {p : Position} {f : File} {a : Archive} {text : List Char} {tab : Int}

namespace File

theorem lineOffset_of_positionAt {line : Int} (read : f.text.answer a = .ok text)
    (h : (f.positionAt line 1 tab).answer a = .ok (some p)) : p.line = line ∧ p.lineOffset = 0 := by
  obtain ⟨place, htab, hplace, rfl⟩ := exists_of_positionAt read h
  obtain ⟨-, -, row, i, -, hi, onLine, -, -, lineOffset⟩ := Text.placeAt_eq_some.mp hplace
  refine ⟨onLine, lineOffset.trans ?_⟩
  cases row with
  | nil => cases hi
  | cons c rest =>
    rw [Text.offsetInLine, if_pos rfl] at hi
    split at hi
    · cases hi
    · cases hi
      rfl

theorem lineOffset_of_endOfLine {line : Int} (read : f.text.answer a = .ok text)
    (h : (f.endOfLine line tab).answer a = .ok (some p)) :
    p.line = line ∧ ∃ row, (splitLines text)[(line - 1).toNat]? = some row ∧
      p.lineOffset + 1 = (stripEnd row).length := by
  obtain ⟨offset, place, htab, last, hplace, rfl⟩ := exists_of_endOfLine read h
  obtain ⟨place', body, hplace', onLine, hbody, length⟩ := Text.exists_of_lastOffset htab last
  obtain rfl : place = place' := Option.some.inj (hplace.symm.trans hplace')
  rw [plainLines, List.getElem?_map] at hbody
  obtain ⟨row, hrow, rfl⟩ := Option.map_eq_some_iff.mp hbody
  exact ⟨onLine, row, hrow, length⟩

end File

namespace Position

/-- What a look-up finds stands in the file. -/
theorem FoundIn.standsIn (h : p.FoundIn f text) : p.file = f ∧ p.StandsIn f text := by
  cases h with
  | byColumn read found =>
    obtain ⟨place, htab, hplace, rfl⟩ := File.exists_of_positionAt read found
    exact ⟨rfl, rfl, .inr (Text.placeOf_of_placeAt htab hplace)⟩
  | byOffset read found =>
    obtain ⟨place, htab, hplace, rfl⟩ := File.exists_of_positionOf read found
    exact ⟨rfl, rfl, .inl (Text.placeAt_of_placeOf hplace)⟩
  | atEnd read found =>
    obtain ⟨_, place, htab, -, hplace, rfl⟩ := File.exists_of_endOfLine read found
    exact ⟨rfl, rfl, .inl (Text.placeAt_of_placeOf hplace)⟩

/-- A position stands in its line at a character that does not end it. -/
theorem StandsIn.exists_plainAt (h : p.StandsIn f text) :
    ∃ line, (splitLines text)[(p.line - 1).toNat]? = some line ∧
      PlainAt line p.lineOffset.toNat ∧
        p.offset.toNat = lineStart (splitLines text) (p.line - 1).toNat + p.lineOffset.toNat := by
  obtain ⟨-, -, _, i, hl, hi, -, -, offset, lineOffset⟩ := Text.placeAt_eq_some.mp h.placeAt
  obtain ⟨before, c, rest, rfl, rfl, plain, -⟩ := Text.exists_of_offsetInLine hi
  refine ⟨_, hl, ⟨c, ?_, plain⟩, by omega⟩
  rw [lineOffset, Int.toNat_natCast, List.getElem?_append_right (Nat.le_refl _), Nat.sub_self]
  rfl

end Position

end Find

/-! ### What a range reads -/

namespace Range

section Read

variable {r : Range} {f : File} {text : List Char}

/-- A range runs through as many lines as its ends say. -/
theorem length_parts (le : r.first.line ≤ r.last.line) {lines : List Text.Line}
    {first last : Text.Line} (hlast : lines[(r.last.line - 1).toNat]? = some last) :
    ((r.parts lines first last).length : Int) = r.last.line - r.first.line + 1 := by
  have oneLe := r.first.one_le_line
  have inside := (List.getElem?_eq_some_iff.mp hlast).1
  unfold parts
  split
  · rw [List.length_singleton]
    omega
  · rw [List.length_cons, List.length_append, List.length_singleton, List.length_drop,
      List.length_take]
    omega

section Ends

variable (hfirst : r.first.StandsIn f text) (hlast : r.last.StandsIn f text)
include hfirst hlast

/-- What lies between two positions of a text is cut inside the lines of the text. -/
theorem exists_parts : ∃ first last, (splitLines text)[(r.first.line - 1).toNat]? = some first ∧
    (splitLines text)[(r.last.line - 1).toNat]? = some last ∧
      splitLines (slice text r.first.offset r.last.offset) =
        r.parts (splitLines text) first last := by
  have nonneg := r.last.offset_nonneg
  have oneLe := r.first.one_le_line
  have onward := hfirst.line_le hlast r.first_le_last
  obtain ⟨first, hk, plain, begins⟩ := hfirst.exists_plainAt
  obtain ⟨last, hl, plain', ends⟩ := hlast.exists_plainAt
  refine ⟨first, last, hk, hl, ?_⟩
  have stop : (r.last.offset + 1).toNat = r.last.offset.toNat + 1 := by omega
  rw [slice, stop, begins, ends, Nat.add_assoc, parts]
  split
  next same =>
    have within := (hfirst.offset_le_iff hlast same).mp r.first_le_last
    rw [← same] at hl ⊢
    obtain rfl : first = last := Option.some.inj (hk.symm.trans hl)
    exact Text.splitLines_slice_self hk plain plain' (by omega)
  next apart =>
    have next : r.first.line.toNat = (r.first.line - 1).toNat + 1 := by omega
    rw [next]
    exact Text.splitLines_slice hk plain hl plain' (by omega)

/-- What lies between two positions of a text. -/
theorem readsAs_slice : r.ReadsAs text (slice text r.first.offset r.last.offset) := by
  have order := r.first_le_last
  have nonneg := r.first.offset_nonneg
  obtain ⟨_, hk, plain, begins⟩ := hfirst.exists_plainAt
  obtain ⟨_, hl, plain', ends⟩ := hlast.exists_plainAt
  have front : PlainAt text r.first.offset.toNat := begins ▸ plain.inText hk
  have back : PlainAt text r.last.offset.toNat := ends ▸ plain'.inText hl
  have stop : (r.last.offset + 1).toNat = r.last.offset.toNat + 1 := by omega
  have length : (slice text r.first.offset r.last.offset).length =
      r.last.offset.toNat + 1 - r.first.offset.toNat := by
    have inside := back.lt
    rw [slice, stop, List.length_drop, List.length_take]
    omega
  obtain ⟨first, last, hfirst', hlast', lines⟩ := exists_parts hfirst hlast
  refine ⟨?_, ?_, ?_, ?_, first, last, hfirst', hlast', lines⟩
  · rw [length, Range.length]
    omega
  · have cut := front.slice (Nat.le_refl _)
      (show r.first.offset.toNat < r.last.offset.toNat + 1 by omega)
    rwa [Nat.sub_self, ← stop] at cut
  · have cut := back.slice (show r.first.offset.toNat ≤ r.last.offset.toNat by omega)
      (Nat.lt_succ_self _)
    rwa [length, slice, stop, show r.last.offset.toNat + 1 - r.first.offset.toNat - 1 =
      r.last.offset.toNat - r.first.offset.toNat by omega]
  · rw [lines]
    exact length_parts (hfirst.line_le hlast order) hlast'

end Ends

/-- From the start of a line up to the end of another one, whole lines are read, but for the
terminator of the last one. -/
theorem ReadsAs.eq_flatten {content : List Char} (h : r.ReadsAs text content)
    (le : r.first.line ≤ r.last.line) (start : r.first.lineOffset = 0) {row : Text.Line}
    (hrow : (splitLines text)[(r.last.line - 1).toNat]? = some row)
    (stop : r.last.lineOffset + 1 = (stripEnd row).length) :
    content = (((splitLines text).take (r.last.line - 1).toNat).drop
      (r.first.line - 1).toNat).flatten ++ stripEnd row := by
  have oneLe := r.first.one_le_line
  have nonneg := r.last.lineOffset_nonneg
  obtain ⟨first, last, hfirst, hlast, lines⟩ := h.lines
  obtain rfl : last = row := Option.some.inj (hlast.symm.trans hrow)
  have body : last.take (r.last.lineOffset.toNat + 1) = stripEnd last := by
    obtain ⟨ending, split, -⟩ := Text.exists_stripEnd_append last
    rw [show r.last.lineOffset.toNat + 1 = (stripEnd last).length by omega]
    exact (congrArg (List.take _) split).trans List.take_left
  rw [← Text.flatten_splitLines content, lines, parts, start]
  split
  next same =>
    rw [← same] at hlast
    obtain rfl : first = last := Option.some.inj (hfirst.symm.trans hlast)
    have none : ((splitLines text).take (r.last.line - 1).toNat).drop (r.first.line - 1).toNat =
        [] := by
      rw [same]
      exact List.drop_eq_nil_of_le (List.length_take_le _ _)
    rw [none, body]
    simp
  next apart =>
    have lt : (r.first.line - 1).toNat < (r.last.line - 1).toNat := by omega
    have here : ((splitLines text).take (r.last.line - 1).toNat)[(r.first.line - 1).toNat]? =
        some first := by
      rw [List.getElem?_take_of_lt lt, hfirst]
    obtain ⟨inside, at_first⟩ := List.getElem?_eq_some_iff.mp here
    rw [List.drop_eq_getElem_cons inside, at_first, body,
      show (r.first.line - 1).toNat + 1 = r.first.line.toNat by omega]
    simp

end Read

/-- The text in a range follows the lines of the file. In a file that can be read, a range between
two positions that were found in its text reads as many characters as it is long, neither begins
nor ends with a character that ends a line, and has the lines of the file from its first to its
last one: the first from where the range begins, the last up to where it ends, and the others as
they are. The range from the first column of a line up to the end of the same or a later one reads
the lines from the one to the other, without the terminator of the last. -/
theorem content_lines {f : File} {a : Archive} {text : List Char}
    (read : f.text.answer a = .ok text) :
    (∀ r : Range, r.first.FoundIn f text → r.last.FoundIn f text →
      ∃ content, r.content.answer a = .ok content ∧ r.ReadsAs text content) ∧
    ∀ (b c : Archive) (i j tab tab' : Int) (p q : Position),
      f.text.answer b = .ok text → (f.positionAt i 1 tab).answer b = .ok (some p) →
      f.text.answer c = .ok text → (f.endOfLine j tab').answer c = .ok (some q) → i ≤ j →
      ∃ r row, ofPositions? p q = .ok r ∧ (splitLines text)[(j - 1).toNat]? = some row ∧
        r.content.answer a =
          .ok ((((splitLines text).take (j - 1).toNat).drop (i - 1).toNat).flatten ++
            stripEnd row) := by
  have reads : ∀ r : Range, r.first.file = f →
      r.content.answer a = .ok (slice text r.first.offset r.last.offset) := by
    intro r file
    unfold content Range.file
    rw [file, Work.answer_bind_ok read, Work.answer_pure]
  constructor
  · intro r first last
    obtain ⟨file, hfirst⟩ := first.standsIn
    obtain ⟨-, hlast⟩ := last.standsIn
    exact ⟨_, reads r file, readsAs_slice hfirst hlast⟩
  · intro b c i j tab tab' p q hb hp hc hq le
    obtain ⟨file, stands⟩ := (Position.FoundIn.byColumn hb hp).standsIn
    obtain ⟨file', stands'⟩ := (Position.FoundIn.atEnd hc hq).standsIn
    obtain ⟨line, start⟩ := File.lineOffset_of_positionAt hb hp
    obtain ⟨line', row, hrow, stop⟩ := File.lineOffset_of_endOfLine hc hq
    have onward : p.line ≤ q.line := by omega
    have order : p.offset ≤ q.offset := by
      rcases Int.lt_or_eq_of_le onward with lt | same
      · exact Int.le_of_lt (stands.offset_lt stands' lt)
      · have nonneg := q.lineOffset_nonneg
        exact (stands.offset_le_iff stands' same).mpr (by omega)
    have same : p.file.version = q.file.version := by rw [file, file']
    let r : Range := ⟨p, q, same, order⟩
    have whole := (readsAs_slice (r := r) stands stands').eq_flatten onward start
      (line'.symm ▸ hrow) stop
    refine ⟨r, row, ofPositions?_eq_ok same order, hrow, (reads r file).trans ?_⟩
    rw [whole, show r.first.line = i from line, show r.last.line = j from line']

/-- A range from behind a tab over both terminators of a line and a lone carriage return to the
last line, and the first three lines. -/
theorem content_lines_returns :
    let text := ['a', '\t', 'b', '\r', '\n', '\r', 'c', 'd', '\n', 'e', 'f']
    let f : File := ⟨⟨"a", "r1"⟩, .memory text⟩
    f.text.answer .empty = .ok text ∧
      (∃ r : Range, r.first.FoundIn f text ∧ r.last.FoundIn f text ∧
        r.first.offset = 2 ∧ r.last.offset = 9 ∧
          ∃ content, r.content.answer .empty = .ok content ∧ content.length = 8 ∧
            splitLines content = [['b', '\r', '\n'], ['\r'], ['c', 'd', '\n'], ['e']]) ∧
      ∃ p q r, (f.positionAt 1 1 4).answer .empty = .ok (some p) ∧
        (f.endOfLine 3 4).answer .empty = .ok (some q) ∧ ofPositions? p q = .ok r ∧
          r.content.answer .empty = .ok ['a', '\t', 'b', '\r', '\n', '\r', 'c', 'd'] := by
  intro text f
  have read : f.text.answer .empty = .ok text := rfl
  obtain ⟨every, whole⟩ := content_lines read
  refine ⟨read, ?_, ?_⟩
  · obtain ⟨p, hp, file, offset, line, place⟩ : ∃ p,
        (f.positionAt 1 5 4).answer .empty = .ok (some p) ∧ p.file = f ∧ p.offset = 2 ∧
          p.line = 1 ∧ p.lineOffset = 2 := ⟨_, rfl, rfl, rfl, rfl, rfl⟩
    obtain ⟨q, hq, file', offset', line', place'⟩ : ∃ q,
        (f.positionOf 9 4).answer .empty = .ok (some q) ∧ q.file = f ∧ q.offset = 9 ∧
          q.line = 4 ∧ q.lineOffset = 0 := ⟨_, rfl, rfl, rfl, rfl, rfl⟩
    let r : Range := ⟨p, q, by rw [file, file'], by omega⟩
    obtain ⟨content, answer, reads⟩ := every r (.byColumn read hp) (.byOffset read hq)
    have length : (content.length : Int) = q.offset + 1 - p.offset := reads.length
    obtain ⟨first, last, hfirst, hlast, lines⟩ := reads.lines
    have begins : r.first.line = 1 := line
    have ends : r.last.line = 4 := line'
    rw [begins] at hfirst
    rw [ends] at hlast
    rw [parts, begins, ends, show r.first.lineOffset = 2 from place,
      show r.last.lineOffset = 0 from place'] at lines
    cases hfirst
    cases hlast
    exact ⟨r, .byColumn read hp, .byOffset read hq, offset, offset', content, answer, by omega,
      lines⟩
  · obtain ⟨p, hp⟩ : ∃ p, (f.positionAt 1 1 4).answer .empty = .ok (some p) := ⟨_, rfl⟩
    obtain ⟨q, hq⟩ : ∃ q, (f.endOfLine 3 4).answer .empty = .ok (some q) := ⟨_, rfl⟩
    obtain ⟨r, row, made, hrow, answer⟩ :=
      whole .empty .empty 1 3 4 4 p q read hp read hq (by decide)
    cases hrow
    exact ⟨p, q, r, hp, hq, made, answer⟩

end Range
end Lineage
