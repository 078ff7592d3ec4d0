/-
# Comparing positions

Positions of one text are compared by offset. Lines follow each other, and in a line the columns
grow from character to character, so positions that were found with one tab size are in the order
of their lines and, in one line, in the order of their columns. Not every column is taken: of the
columns before a character of a line, those are missed that lie strictly between the column of a
tab and the column of the character after it (`File.positions_in_order`).

Key definitions: `Position.Precedes`, `Position.AroundTab`.
Key theorems: `Position.StandsIn.distance_sign`, `File.insideTab_iff`, `File.positions_in_order`.
-/
import Lineage.Proofs.Range.Reading
import Lineage.Proofs.Text.Columns

namespace Lineage

open Text (PlainAt columnOf lineStart splitLines)

namespace Position

/-- A position comes before another one, line by line and in a line column by column. -/
def Precedes (p q : Position) : Prop :=
  p.line < q.line ∨ p.line = q.line ∧ p.column < q.column

/-- Positions that were found with a tab size in one line of a file: that of a tab, and that of the
character right after the tab. -/
structure AroundTab (p q : Position) (f : File) (text : List Char) (tab line : Int) : Prop where
  found : p.FoundIn f text ∧ q.FoundIn f text
  tabSize : p.tabSize = tab ∧ q.tabSize = tab
  onLine : p.line = line ∧ q.line = line
  isTab : text[p.offset.toNat]? = some '\t'
  adjacent : q.offset = p.offset + 1

section Stands

variable {p q : Position} {file file' : File} {text : List Char}

/-- Where a position stands in its line. -/
theorem StandsIn.in_row (h : p.StandsIn file text) {line : Int} (onLine : p.line = line)
    {row : Text.Line} (hrow : (splitLines text)[(line - 1).toNat]? = some row) :
    PlainAt row p.lineOffset.toNat ∧
      p.column = columnOf p.tabSize (row.take p.lineOffset.toNat) ∧
        p.offset.toNat =
          lineStart (splitLines text) (line - 1).toNat + p.lineOffset.toNat := by
  subst onLine
  obtain ⟨_, hl, plain, offset⟩ := h.exists_plainAt
  obtain rfl := Option.some.inj (hl.symm.trans hrow)
  obtain ⟨_, i, hl, hi, place⟩ := h.exists_line
  obtain rfl := Option.some.inj (hl.symm.trans hrow)
  obtain ⟨before, c, rest, rfl, rfl, -, reached⟩ := Text.exists_of_offsetInLine hi
  refine ⟨plain, ?_, offset⟩
  rw [place, Int.toNat_natCast, List.take_left]
  exact reached.symm

section Pair

variable (hp : p.StandsIn file text) (hq : q.StandsIn file' text) (tabs : p.tabSize = q.tabSize)
include hp hq tabs

/-- Positions of one line are in the order of their columns. -/
theorem StandsIn.column_lt_iff (same : p.line = q.line) :
    p.column < q.column ↔ p.lineOffset < q.lineOffset := by
  have nonneg := p.lineOffset_nonneg
  obtain ⟨_, hrow, -⟩ := hp.exists_plainAt
  obtain ⟨plain, column, -⟩ := hp.in_row rfl hrow
  obtain ⟨plain', column', -⟩ := hq.in_row same.symm hrow
  rw [column, column', ← tabs, Text.columnOf_take_lt_iff p.one_le_tabSize
    (Nat.le_of_lt plain.lt) (Nat.le_of_lt plain'.lt)]
  omega

theorem StandsIn.offset_lt_of_precedes (h : p.Precedes q) : p.offset < q.offset := by
  rcases h with lt | ⟨same, lt⟩
  · exact hp.offset_lt hq lt
  · have before := (hp.column_lt_iff hq tabs same).mp lt
    refine Int.lt_of_not_ge fun le => ?_
    have behind := (hq.offset_le_iff hp same.symm).mp le
    omega

theorem StandsIn.offset_eq_of_same (line : p.line = q.line) (column : p.column = q.column) :
    p.offset = q.offset := by
  have notBefore := hp.column_lt_iff hq tabs line
  have notBehind := hq.column_lt_iff hp tabs.symm line.symm
  exact hp.offset_unique hq line (by omega)

/-- The distance of two positions tells which of them comes first. -/
theorem StandsIn.distance_sign :
    (p.offset - q.offset < 0 ↔ p.Precedes q) ∧
      (p.offset - q.offset = 0 ↔ p.line = q.line ∧ p.column = q.column) ∧
        (0 < p.offset - q.offset ↔ q.Precedes p) := by
  have before := hp.offset_lt_of_precedes hq tabs
  have behind := hq.offset_lt_of_precedes hp tabs.symm
  have same := hp.offset_eq_of_same hq tabs
  -- one of the three holds, and each fixes the sign
  unfold Precedes at before behind ⊢
  omega

end Pair

end Stands

end Position

/-! ### Columns that are missed -/

namespace File

variable {f : File} {a : Archive} {text : List Char} {tab : Int}

/-- Each character that does not end its line is found. -/
theorem exists_position (read : f.text.answer a = .ok text) (htab : 1 ≤ tab) {k i : Nat}
    {row : Text.Line} (hk : (splitLines text)[k]? = some row) (plain : PlainAt row i) :
    ∃ p : Position, p.FoundIn f text ∧ p.tabSize = tab ∧ p.line = k + 1 ∧
      p.column = columnOf tab (row.take i) ∧
        p.offset = (lineStart (splitLines text) k + i : Nat) := by
  obtain ⟨c, hc, plain⟩ := plain
  obtain ⟨bound, rfl⟩ := List.getElem?_eq_some_iff.mp hc
  have split : row = row.take i ++ row[i] :: row.drop (i + 1) := by
    rw [List.getElem_cons_drop, List.take_append_drop]
  obtain ⟨place, found, line, column, offset, -⟩ := Text.exists_placeOf htab (split ▸ hk) plain
  have answer := answer_positionOf read place.offset_nonneg htab
  rw [offset, found] at answer
  rw [List.length_take_of_le (Nat.le_of_lt bound)] at offset
  exact ⟨⟨place, f, tab, htab⟩, .byOffset read answer, rfl, line, column, offset⟩

/-- Before a position of a line, a column lies inside a tab exactly if it is between the positions
of the tab and of the character after it. -/
theorem insideTab_iff (read : f.text.answer a = .ok text) {last : Position}
    (stands : last.StandsIn f text) {row : Text.Line}
    (hrow : (splitLines text)[(last.line - 1).toNat]? = some row) {column : Int}
    (lt : column < last.column) :
    Text.InsideTab last.tabSize row column ↔
      ∃ p q : Position, p.AroundTab q f text last.tabSize last.line ∧
        p.column < column ∧ column < q.column := by
  have htab := last.one_le_tabSize
  have oneLe := last.one_le_line
  obtain ⟨plain, lastColumn, -⟩ := stands.in_row rfl hrow
  constructor
  · rintro ⟨i, isTab, before, behind⟩
    have bound := (List.getElem?_eq_some_iff.mp isTab).1
    have left : i < last.lineOffset.toNat := by
      rw [← Text.columnOf_take_lt_iff htab (Nat.le_of_lt bound) (Nat.le_of_lt plain.lt),
        ← lastColumn]
      exact Int.lt_trans before lt
    have plainUpTo : ∀ j ≤ last.lineOffset.toNat, PlainAt row j := fun j le =>
      plain.of_le (List.mem_of_getElem? hrow) le
    obtain ⟨p, hp, ptab, pline, pcolumn, poffset⟩ :=
      exists_position read htab hrow (plainUpTo i (Nat.le_of_lt left))
    obtain ⟨q, hq, qtab, qline, qcolumn, qoffset⟩ :=
      exists_position read htab hrow (plainUpTo (i + 1) left)
    have char : text[p.offset.toNat]? = some '\t' := by
      rw [poffset, Int.toNat_natCast, Text.getElem?_lineStart hrow bound, isTab]
    exact ⟨p, q, ⟨⟨hp, hq⟩, ⟨ptab, qtab⟩, by omega, char, by omega⟩, pcolumn ▸ before,
      qcolumn ▸ behind⟩
  · rintro ⟨p, q, around, before, behind⟩
    obtain ⟨pplain, pcolumn, poffset⟩ := around.found.1.standsIn.2.in_row around.onLine.1 hrow
    obtain ⟨-, qcolumn, qoffset⟩ := around.found.2.standsIn.2.in_row around.onLine.2 hrow
    have next : q.lineOffset.toNat = p.lineOffset.toNat + 1 := by
      have adjacent := around.adjacent
      have nonneg := p.offset_nonneg
      omega
    rw [around.tabSize.1] at pcolumn
    rw [around.tabSize.2, next] at qcolumn
    refine ⟨p.lineOffset.toNat, ?_, pcolumn ▸ before, qcolumn ▸ behind⟩
    rw [← Text.getElem?_lineStart hrow pplain.lt, ← poffset, around.isTab]

/-- Offsets are in the order of lines and columns. Of two positions that were found in the text of
a file with one tab size, the comparison is negative if the first one comes before the second one,
zero if they share line and column, and positive if the second one comes first. In a line that has
a last character, a look-up misses one of the columns before it exactly if the column is strictly
between that of a tab and that of the character after the tab. -/
theorem positions_in_order (read : f.text.answer a = .ok text) (htab : 1 ≤ tab) :
    (∀ p q : Position, p.FoundIn f text → q.FoundIn f text → p.tabSize = tab → q.tabSize = tab →
      ∃ d, p.compare (some q) = .ok d ∧ (d < 0 ↔ p.Precedes q) ∧
        (d = 0 ↔ p.line = q.line ∧ p.column = q.column) ∧ (0 < d ↔ q.Precedes p)) ∧
    ∀ (b : Archive) (line column : Int) (last : Position), f.text.answer b = .ok text →
      (f.endOfLine line tab).answer b = .ok (some last) → 1 ≤ column → column < last.column →
        ∃ found, (f.positionAt line column tab).answer a = .ok found ∧
          (found = none ↔ ∃ p q : Position, p.AroundTab q f text tab line ∧
            p.column < column ∧ column < q.column) := by
  constructor
  · intro p q hp hq ptab qtab
    obtain ⟨pfile, pstands⟩ := hp.standsIn
    obtain ⟨qfile, qstands⟩ := hq.standsIn
    have version : p.SameVersion q := by rw [Position.SameVersion, pfile, qfile]
    exact ⟨p.offset - q.offset, by rw [Position.compare, if_pos version],
      pstands.distance_sign qstands (ptab.trans qtab.symm)⟩
  · intro b line column last readAgain ends one_le lt
    obtain ⟨-, stands⟩ := (Position.FoundIn.atEnd readAgain ends).standsIn
    obtain ⟨rfl, row, hrow, -⟩ := lineOffset_of_endOfLine readAgain ends
    obtain rfl : last.tabSize = tab := by
      obtain ⟨_, _, _, -, -, rfl⟩ := exists_of_endOfLine readAgain ends
      rfl
    obtain ⟨plain, reached, -⟩ := stands.in_row rfl hrow
    have front := plain.not_terminator_take (List.mem_of_getElem? hrow)
    have oneLe := last.one_le_line
    refine ⟨_, answer_positionAt read oneLe one_le htab, ?_⟩
    rw [Option.map_eq_none_iff, Text.placeAt_eq_none_iff oneLe one_le hrow,
      Text.offsetInLine_eq_none_iff htab front one_le (by rwa [← reached]),
      insideTab_iff read stands hrow lt]

/-- A character behind a tab comes before those of the lines below it, and the column between them
is missed. -/
theorem positions_in_order_tab :
    let text := ['a', 'b', '\t', 'c', '\r', '\n', 'x', '\r', 'd']
    let f : File := ⟨⟨"a", "r1"⟩, .memory text⟩
    f.text.answer .empty = .ok text ∧
      ∃ p q d : Position, (f.positionAt 1 3 4).answer .empty = .ok (some p) ∧
        (f.endOfLine 1 4).answer .empty = .ok (some q) ∧
          (f.positionOf 8 4).answer .empty = .ok (some d) ∧ d.line = 3 ∧
            (∃ n, q.compare (some d) = .ok n ∧ n < 0) ∧ p.column < 4 ∧ 4 < q.column ∧
              (f.positionAt 1 4 4).answer .empty = .ok none := by
  intro text f
  have read : f.text.answer .empty = .ok text := rfl
  obtain ⟨order, missed⟩ := positions_in_order read (show (1 : Int) ≤ 4 by decide)
  obtain ⟨p, hp, ptab, pline, pcolumn, poffset⟩ : ∃ p,
      (f.positionAt 1 3 4).answer .empty = .ok (some p) ∧ p.tabSize = 4 ∧ p.line = 1 ∧
        p.column = 3 ∧ p.offset = 2 := ⟨_, rfl, rfl, rfl, rfl, rfl⟩
  obtain ⟨q, hq, qtab, qline, qcolumn, qoffset⟩ : ∃ q,
      (f.endOfLine 1 4).answer .empty = .ok (some q) ∧ q.tabSize = 4 ∧ q.line = 1 ∧
        q.column = 5 ∧ q.offset = 3 := ⟨_, rfl, rfl, rfl, rfl, rfl⟩
  obtain ⟨d, hd, dtab, dline⟩ : ∃ d,
      (f.positionOf 8 4).answer .empty = .ok (some d) ∧ d.tabSize = 4 ∧ d.line = 3 :=
    ⟨_, rfl, rfl, rfl⟩
  have around : p.AroundTab q f text 4 1 :=
    ⟨⟨.byColumn read hp, .atEnd read hq⟩, ⟨ptab, qtab⟩, ⟨pline, qline⟩, by rw [poffset]; rfl,
      by rw [poffset, qoffset]; rfl⟩
  obtain ⟨n, compared, negative, -, -⟩ := order q d (.atEnd read hq) (.byOffset read hd) qtab dtab
  obtain ⟨found, looked, none_iff⟩ :=
    missed .empty 1 4 q read hq (by decide) (by rw [qcolumn]; decide)
  have before : p.column < 4 := by rw [pcolumn]; decide
  have behind : 4 < q.column := by rw [qcolumn]; decide
  rw [none_iff.mpr ⟨p, q, around, before, behind⟩] at looked
  have below : q.Precedes d := .inl (by rw [qline, dline]; decide)
  exact ⟨read, p, q, d, hp, hq, hd, dline, ⟨n, compared, negative.mpr below⟩, before, behind,
    looked⟩

end File

end Lineage
