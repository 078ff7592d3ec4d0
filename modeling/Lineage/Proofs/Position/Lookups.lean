/-
# Looking up positions

A file with a text answers both look-ups, the one by offset and the one by line and
column, and each leads back to what the other one found (`File.lookups_inverse`). By
offset every character is found that ends no line, and the position that is found says
where it stands (`Position.Marks`).

Key definitions: `Position.Marks`.
Key theorems: `File.lookups_inverse`.
-/
import Lineage.Proofs.Archive.Reading
import Lineage.Proofs.Text.Offsets

namespace Lineage

open Text (columnOf lineStart linesBefore splitLines)

/-- A position in a file that says where the character at an offset of its text stands:
behind the lines that lie before it, as far from the start of its own line as the offset
is, and in the column that the characters in between lead to. -/
structure Position.Marks (p : Position) (f : File) (tab : Int) (text : List Char)
    (offset : Nat) : Prop where
  file : p.file = f
  tabSize : p.tabSize = tab
  offset_eq : p.offset = offset
  line : p.line = 1 + linesBefore (splitLines text) offset
  lineOffset :
    p.lineOffset = offset - lineStart (splitLines text) (linesBefore (splitLines text) offset)
  column :
    p.column = columnOf tab ((text.take offset).drop
      (lineStart (splitLines text) (linesBefore (splitLines text) offset)))

namespace File

variable {f : File} {a b : Archive} {text : List Char} {tab : Int}

/-- A file with a text answers look-ups by offset and by line and column, and what one of
them finds is what the other one finds there. By offset a position is found at every
character that ends no line, and it marks that character; by line and column one is found
in that line and column. -/
theorem lookups_inverse (ha : f.text.answer a = .ok text) (hb : f.text.answer b = .ok text)
    (htab : 1 ≤ tab) :
    (∀ offset : Nat, ∃ found, (f.positionOf offset tab).answer a = .ok found ∧
      (found.isSome ↔ ∃ h : offset < text.length, text[offset] ≠ '\n' ∧ text[offset] ≠ '\r') ∧
      ∀ p, found = some p → p.Marks f tab text offset ∧
        (f.positionAt p.line p.column tab).answer b = .ok (some p)) ∧
    ∀ line column : Int, 1 ≤ line → 1 ≤ column →
      ∃ found, (f.positionAt line column tab).answer a = .ok found ∧
      ∀ p, found = some p → p.file = f ∧ p.tabSize = tab ∧ p.line = line ∧ p.column = column ∧
        (f.positionOf p.offset tab).answer b = .ok (some p) := by
  constructor
  · intro offset
    refine ⟨_, answer_positionOf ha (by omega) htab, ?_, fun p hp => ?_⟩
    · rw [Option.isSome_map]
      exact Text.isSome_placeOf htab text offset
    · obtain ⟨place, found, rfl⟩ := Option.map_eq_some_iff.mp hp
      obtain ⟨offset, line, lineOffset, column⟩ := Text.placeOf_eq_some found
      have back := answer_positionAt hb place.one_le_line place.one_le_column htab
      rw [Text.placeAt_of_placeOf found] at back
      exact ⟨⟨rfl, rfl, offset, line, lineOffset, column⟩, back⟩
  · intro line column hline hcolumn
    refine ⟨_, answer_positionAt ha hline hcolumn htab, fun p hp => ?_⟩
    obtain ⟨place, found, rfl⟩ := Option.map_eq_some_iff.mp hp
    obtain ⟨-, -, _, _, -, -, onLine, inColumn, -, -⟩ := Text.placeAt_eq_some.mp found
    have back := answer_positionOf hb place.offset_nonneg htab
    rw [Text.placeOf_of_placeAt htab found] at back
    exact ⟨rfl, rfl, onLine, inColumn, back⟩

/-- A character behind a tab, in the line that a lone carriage return leaves behind. -/
theorem lookups_inverse_tab :
    let text := ['\r', 'a', '\t', 'b', '\r', '\n']
    let f : File := ⟨⟨"a", "r1"⟩, .memory text⟩
    f.text.answer Archive.empty = .ok text ∧
      ∃ p, (f.positionOf 3 4).answer Archive.empty = .ok (some p) ∧ p.line = 2 ∧ p.column = 5 ∧
        p.lineOffset = 2 ∧ (f.positionAt 2 5 4).answer Archive.empty = .ok (some p) := by
  intro text f
  have read : f.text.answer Archive.empty = .ok text := rfl
  obtain ⟨byOffset, -⟩ := lookups_inverse read read (show (1 : Int) ≤ 4 by decide)
  obtain ⟨found, answer, present, marks⟩ := byOffset 3
  obtain ⟨p, rfl⟩ := Option.isSome_iff_exists.mp (present.mpr ⟨by decide, by decide, by decide⟩)
  obtain ⟨mark, back⟩ := marks p rfl
  have line : p.line = 2 := mark.line.trans (by decide)
  have column : p.column = 5 := mark.column.trans (by decide)
  refine ⟨read, p, answer, line, column, mark.lineOffset.trans (by decide), ?_⟩
  rwa [line, column] at back

end File
end Lineage
