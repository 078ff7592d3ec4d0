/-
# Translations that succeed

Where the files of a change can be read, a range whose ends were found in its file is
translated without a fault, whatever diff the change carries. A line that the layout leads
to either is not there, or is empty, or has the column that is looked up in it; and the
ends that are found lie in one file, so they make a range (`Range.ensures_translate`).

Key definitions: `Position.Resolved`, `Range.Resolved`.
Key theorems: `Position.ensures_applyLayout`, `Range.ensures_translate`.
-/
import Lineage.Proofs.Archive.Ensuring
import Lineage.Proofs.Translation.Applying

namespace Lineage

open Text (plainLines splitLines)

/-- A position that a look-up in its file finds, whose text is the content of its version. -/
def Position.Resolved (content : Version → List Char) (p : Position) : Prop :=
  p.StandsIn p.file (content p.file.version)

/-- A range of which both ends were found. -/
structure Range.Resolved (content : Version → List Char) (r : Range) : Prop where
  first : r.first.Resolved content
  last : r.last.Resolved content

variable {scope : File → Prop} {content : Version → List Char}

/-! ### Positions -/

namespace Position

variable {p : Position} {old new : File}

theorem Resolved.standsIn (h : p.Resolved content) (version : old.version = p.file.version) :
    p.StandsIn old (content old.version) :=
  ⟨version, version ▸ h.found⟩

section Apply

variable (apart : ∀ f g, scope f → scope g → f.OneHandle g)
include apart

/-- Whatever layout is applied to it, a position becomes nothing or a position in the new
file. -/
theorem ensures_applyLayout (oldKnown : scope old) (newKnown : scope new)
    (version : old.version = p.file.version) (resolved : p.Resolved content) (layout : Layout) :
    (p.applyLayout old new layout).Ensures (Archive.Holds scope content) fun r =>
      ∀ q, r = some q → q.file = new := by
  have stands := resolved.standsIn version
  obtain ⟨oldLine, hold, -⟩ := stands.exists_plain
  unfold applyLayout
  by_cases gone : layout.deletes p.line = true
  · rw [if_pos gone]
    exact .pure fun q hq => by cases hq
  · rw [if_neg gone]
    apply (File.ensures_lines apart newKnown).bind
    rintro newLines rfl
    by_cases above : layout.mapLine p.line < 1
    · rw [if_pos above]
      exact .pure fun q hq => by cases hq
    · obtain ⟨N, moved⟩ : ∃ N : Nat, layout.mapLine p.line = N :=
        ⟨(layout.mapLine p.line).toNat, by omega⟩
      have pos : 1 ≤ N := by omega
      have index : ((N : Int) - 1).toNat = N - 1 := by omega
      rw [if_neg above, moved, index]
      cases hnew : (plainLines (content new.version))[N - 1]? with
      | none => exact .pure fun q hq => by cases hq
      | some newLine =>
        cases newLine with
        | nil => exact .pure fun q hq => by cases hq
        | cons ch rest =>
          obtain ⟨place, found, -⟩ := stands.exists_place new pos hold hnew (List.cons_ne_nil _ _)
          have onLine : (1 : Int) ≤ N := by omega
          apply (File.ensures_lines apart oldKnown).bind
          rintro oldLines rfl
          rw [hold]
          apply (File.ensures_positionAt apart newKnown onLine (p.one_le_columnIn oldLine _)
            p.one_le_tabSize).bind
          rintro r rfl
          rw [found]
          refine .pure fun q hq => ?_
          rw [← Option.some.inj hq]

/-- A change of its file takes a position to nothing or into the new file. -/
theorem ensures_apply {c : Change} (known : ∀ f ∈ c.files, scope f) (hold : c.old = some old)
    (version : old.version = p.file.version) (resolved : p.Resolved content) :
    (p.apply c).Ensures (Archive.Holds scope content) fun r =>
      ∀ q, r = some q → c.new = some q.file := by
  have oldKnown : scope old := known old (Change.mem_files.mpr (.inl hold))
  have files : c.old ≠ none ∨ c.new ≠ none := .inl (hold ▸ Option.some_ne_none old)
  have diff : c.diff.Ensures (Archive.Holds scope content) fun _ => True :=
    Change.ensures_diff apart known files
  unfold apply
  rw [hold]
  dsimp only
  rw [if_neg fun ne => ne version]
  cases hnew : c.new with
  | none => exact .pure fun q hq => by cases hq
  | some new =>
    have newKnown : scope new := known new (Change.mem_files.mpr (.inr hnew))
    apply diff.bind
    intro changes _
    apply (ensures_applyLayout apart oldKnown newKnown version resolved _).mono
    intro r inNew q hq
    rw [inNew q hq]

end Apply
end Position

/-! ### Ranges -/

namespace Range

theorem ofPositions?_eq_ok {p q : Position} (same : p.file.version = q.file.version)
    (le : p.offset ≤ q.offset) : ofPositions? p q = .ok ⟨p, q, same, le⟩ := by
  unfold ofPositions?
  rw [dif_pos same, dif_pos le]

section Translate

variable {r : Range} {c : Change} {old : File}
  (apart : ∀ f g, scope f → scope g → f.OneHandle g)
include apart

/-- The ends of a range make a range again or nothing. -/
theorem ensures_apply (known : ∀ f ∈ c.files, scope f) (hold : c.old = some old)
    (version : old.version = r.file.version) (resolved : r.Resolved content) :
    (r.apply c).Ensures (Archive.Holds scope content) fun _ => True := by
  apply (Position.ensures_apply apart known hold version resolved.first).bind
  intro first? inNew
  apply (Position.ensures_apply apart known hold (version.trans r.sameVersion) resolved.last).bind
  intro last? inNew'
  cases first? with
  | none => exact .pure trivial
  | some first =>
    cases last? with
    | none => exact .pure trivial
    | some last =>
      have same : first.file = last.file :=
        Option.some.inj ((inNew first rfl).symm.trans (inNew' last rfl))
      dsimp only
      by_cases le : first.offset ≤ last.offset
      · rw [if_pos le, ofPositions?_eq_ok (congrArg File.version same) le]
        exact .pure trivial
      · rw [if_neg le]
        exact .pure trivial

theorem ensures_ofLines {new : File} (known : scope new) {first last tab : Int}
    (hfirst : 1 ≤ first) (hlast : 1 ≤ last) (htab : 1 ≤ tab) :
    (ofLines new first last tab).Ensures (Archive.Holds scope content) fun _ => True := by
  have unresolved : (do
      Work.note (.linesUnresolved first last new.name)
      pure none : Work (Option Range)).Ensures (Archive.Holds scope content) fun _ => True :=
    (Work.ensures_note _).bind fun _ _ => .pure trivial
  apply (File.ensures_positionAt apart known hfirst (Int.le_refl 1) htab).bind
  intro begin? hbegin
  apply (File.ensures_endOfLine apart known hlast htab).bind
  intro end? hend
  cases begin? with
  | none => exact unresolved
  | some p =>
    cases end? with
    | none => exact unresolved
    | some q =>
      obtain ⟨place, -, rfl⟩ := Option.map_eq_some_iff.mp hbegin.symm
      have same : new = q.file := (hend q rfl).symm
      dsimp only
      by_cases le : place.offset ≤ q.offset
      · rw [if_pos le, ofPositions?_eq_ok (congrArg File.version same) le]
        exact .pure trivial
      · rw [if_neg le]
        exact unresolved

theorem ensures_estimate {new : File} (known : scope new) (diff : List LineChange) :
    (r.estimate new diff).Ensures (Archive.Holds scope content) fun _ => True := by
  apply (File.ensures_fullLines apart known).bind
  intro lines _
  dsimp only
  cases estimateLines r.first.line r.last.line
      ((diff.filter LineChange.isDelete).map LineChange.line) lines.length with
  | none => exact (Work.ensures_note _).bind fun _ _ => .pure trivial
  | some ends =>
    obtain ⟨first, last⟩ := ends
    dsimp only
    by_cases below : first < 1 ∨ last < 1
    · rw [if_pos below]
      exact .pure trivial
    · rw [if_neg below]
      exact ensures_ofLines apart known (by omega) (by omega) r.first.one_le_tabSize

/-- A range in the old file of a change is translated, to a range or to nothing. -/
theorem ensures_translate (known : ∀ f ∈ c.files, scope f) (hold : c.old = some old)
    (version : old.version = r.file.version) (resolved : r.Resolved content) :
    (r.translate c).Ensures (Archive.Holds scope content) fun _ => True := by
  have files : c.old ≠ none ∨ c.new ≠ none := .inl (hold ▸ Option.some_ne_none old)
  apply (ensures_apply apart known hold version resolved).bind
  intro moved _
  cases moved with
  | some moved => exact .pure trivial
  | none =>
    cases hnew : c.new with
    | none => exact .pure trivial
    | some new =>
      have newKnown : scope new := known new (Change.mem_files.mpr (.inr hnew))
      apply (Change.ensures_diff apart known files).bind
      intro diff _
      exact ensures_estimate apart newKnown diff

end Translate
end Range
end Lineage
