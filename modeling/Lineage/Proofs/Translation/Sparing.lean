/-
# Ranges beside an edit

A position in a line beside all edits of a change is found in the same place of the same
line, moved as the edits have it. So a range beside all edits is translated to the range
of the new file that stands in the lines that its lines have become, whichever look-ups
that range was found by.

Key definitions: `Change.Spares`.
Key theorems: `Change.Finds.apply_beside`, `Change.Spares.translate`.
-/
import Lineage.Proofs.Diff.Sides
import Lineage.Proofs.Translation.Ordering

namespace Lineage

open Text (plainLines)

/-- The change compares two files and edits only what is beside a range of the old one;
another range stands in the new file, in the lines that the lines of the first one have
become, and in the same places of these lines. -/
inductive Change.Spares (c : Change) (o : Scope) (a : Archive) (r s : Range) : Prop
  | mk {old new : File} {before after : List Char} {diff : List LineChange} {shift : Int}
    (compared : c.origin = .compared) (sourced : c.Sourced a)
    (finds : c.Finds o a old new before after diff)
    (first : r.first.StandsIn old before) (last : r.last.StandsIn old before)
    (beside : LineChange.Beside diff r.first.line r.last.line shift)
    (first' : s.first.StandsIn new after) (last' : s.last.StandsIn new after)
    (lines : s.first.line = r.first.line + shift ∧ s.last.line = r.last.line + shift)
    (places : s.first.lineOffset = r.first.lineOffset ∧ s.last.lineOffset = r.last.lineOffset)

namespace Change

variable {c : Change} {o : Scope} {a : Archive} {old new : File} {before after : List Char}
  {diff : List LineChange} {p : Position}

theorem Finds.diff_eq (h : c.Finds o a old new before after diff) (compared : c.origin = .compared)
    (sourced : c.Sourced a) : diff = lineDiff (plainLines before) (plainLines after) := by
  have compares : c.Compares old new := ⟨compared, h.old, h.new⟩
  have apart : old.OneHandle new := o.oneFile old new h.oldKnown h.newKnown
  obtain ⟨computed, -⟩ := compares.diff apart sourced h.oldText h.newText
  exact Except.ok.inj (h.answer.symm.trans computed)

/-- A position beside all edits stays in its place of its line. -/
theorem Finds.apply_beside
    (h : c.Finds o a old new before after (lineDiff (plainLines before) (plainLines after)))
    (stands : p.StandsIn old before) {shift : Int}
    (beside : LineChange.Beside (lineDiff (plainLines before) (plainLines after))
      p.line p.line shift) :
    ∃ q, (p.apply c).Answers o a (some q) ∧ q.file = new ∧ q.StandsIn new after ∧
      q.line = p.line + shift ∧ q.lineOffset = p.lineOffset := by
  have script := EditScript.lineDiff (plainLines before) (plainLines after)
  obtain ⟨L, line, pos, bound⟩ := stands.exists_number
  obtain ⟨kept, moved⟩ := Layout.mapLine_beside beside
  rw [line] at beside moved
  obtain ⟨M, place, onLine, same⟩ := script.same_line pos bound beside
  have index : (p.line - 1).toNat = L - 1 := by omega
  obtain ⟨r, answers, lands⟩ :=
    h.lands stands kept (by rw [line, moved, place]) onLine
  obtain ⟨q, rfl, inNew, newLine, -, lineOffset, -⟩ := lands.of_same (by rw [index, same]) stands
  exact ⟨q, answers, inNew, lands.2.1, by rw [newLine, place, line], lineOffset⟩

/-- A range that is spared is translated to where the other range lies. -/
theorem Spares.translate {r s : Range} (h : c.Spares o a r s) :
    ∃ moved, (r.translate c).Answers o a (some moved) ∧ moved.span = s.span := by
  obtain ⟨compared, sourced, finds, first, last, beside, first', last', lines, places⟩ := h
  have le := first.line_le last r.first_le_last
  obtain rfl := finds.diff_eq compared sourced
  obtain ⟨p, begins, inNew, stands, line, place⟩ :=
    finds.apply_beside first (beside.line (Int.le_refl _) le)
  obtain ⟨q, ends, inNew', stands', line', place'⟩ :=
    finds.apply_beside last (beside.line le (Int.le_refl _))
  have firstOffset : p.offset = s.first.offset :=
    stands.offset_unique first' (line.trans lines.1.symm) (place.trans places.1.symm)
  have lastOffset : q.offset = s.last.offset :=
    stands'.offset_unique last' (line'.trans lines.2.symm) (place'.trans places.2.symm)
  have same : p.file.version = q.file.version := by rw [inNew, inNew']
  have order : p.offset ≤ q.offset := by
    rw [firstOffset, lastOffset]
    exact s.first_le_last
  have applied := Range.apply_of_ends finds.known begins ends same order
  refine ⟨⟨p, q, same, order⟩, Range.translate_of_applied finds.known applied, ?_⟩
  show (⟨p.file.version.path, p.offset, q.offset⟩ : Span) =
    ⟨s.first.file.version.path, s.first.offset, s.last.offset⟩
  rw [firstOffset, lastOffset, inNew, first'.version]

end Change
end Lineage
