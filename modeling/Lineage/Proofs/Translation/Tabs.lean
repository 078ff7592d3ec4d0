/-
# Translation and tab sizes

The column of a position depends on the tab size that it was found with, and it is by columns
that positions are looked up in a new file. Still the tab size is nowhere to be seen in the
outcome. Positions at one offset of a text have one line and one place in that line, and a
column is only looked up in a line with the same text, where it leads back to that place; in
all other lines the first column is looked up, which is the first character whatever the tab
size. So ranges that coincide are translated to nothing or to ranges that coincide, or none
of them is translated (`Range.agrees_translate`).

Key definitions: `Position.Coincides`, `Range.Coincides`, `Archive.Tells`.
Key theorems: `Position.agrees_applyLayout`, `Range.agrees_translate`.
-/
import Lineage.Proofs.Archive.Agreeing
import Lineage.Proofs.Translation.Ordering

namespace Lineage

open Text (plainLines splitLines)

/-! ### Look-ups -/

namespace Text

/-- Two places at one offset, or none twice. -/
abbrev SameOffset : Option Place → Option Place → Prop :=
  Option.Rel fun p q => p.offset = q.offset

theorem offsetInLine_one (tab tab' : Int) : ∀ text : List Char,
    offsetInLine tab 1 1 text = offsetInLine tab' 1 1 text
  | [] => rfl
  | c :: rest => by
    rw [offsetInLine, offsetInLine]
    simp

theorem sameOffset_placeAt_one (tab tab' : Int) (lines : List Line) (line : Int) :
    SameOffset (placeAt tab lines line 1) (placeAt tab' lines line 1) := by
  have same : placeAt tab lines line 1 = placeAt tab' lines line 1 := by
    unfold placeAt
    simp only [offsetInLine_one tab tab']
  rw [same]
  cases placeAt tab' lines line 1 with
  | none => exact .none
  | some p => exact .some rfl

/-- The place of an offset lies at that offset, whatever the tab size. -/
theorem sameOffset_placeOf {tab tab' : Int} (htab : 1 ≤ tab) (htab' : 1 ≤ tab')
    (lines : List Line) (offset : Int) :
    SameOffset (placeOf tab lines offset) (placeOf tab' lines offset) := by
  unfold placeOf
  by_cases nonneg : 0 ≤ offset
  · rw [dif_pos ⟨nonneg, htab⟩, dif_pos ⟨nonneg, htab'⟩]
    cases spotAt lines offset.toNat with
    | none => exact .none
    | some s =>
      dsimp only [Option.bind_eq_bind, Option.bind_some]
      by_cases ends : isTerminator s.char = true
      · rw [if_pos ends, if_pos ends]
        exact .none
      · rw [if_neg ends, if_neg ends]
        exact .some rfl
  · rw [dif_neg fun h => nonneg h.1, dif_neg fun h => nonneg h.1]
    exact .none

end Text

/-! ### Positions that coincide -/

/-- Positions at one offset of one version of a file. -/
structure Position.Coincides (p q : Position) : Prop where
  version : p.file.version = q.file.version
  offset : p.offset = q.offset

/-- Ranges of one version of a file from one offset to another one. -/
structure Range.Coincides (r s : Range) : Prop where
  first : r.first.Coincides s.first
  last : r.last.Coincides s.last

/-- Whatever file of a session can be read holds the content of its version. -/
def Archive.Tells (a : Archive) (o : Scope) (content : Version → List Char) : Prop :=
  ∀ f, o.file f → ∀ text, f.text.answer a = .ok text → text = content f.version

variable {o : Scope} {a : Archive} {content : Version → List Char}

namespace Position

variable {p q : Position} {old new : File} {text before after : List Char}

/-- Positions at one offset of a text are in one line, at one place of it. -/
theorem StandsIn.spot_eq (hp : p.StandsIn old text) (hq : q.StandsIn new text)
    (same : p.offset = q.offset) : p.line = q.line ∧ p.lineOffset = q.lineOffset := by
  have line : p.line = q.line := Int.le_antisymm (hp.line_le hq (Int.le_of_eq same))
    (hq.line_le hp (Int.le_of_eq same.symm))
  exact ⟨line, Int.le_antisymm ((hp.offset_le_iff hq line).mp (Int.le_of_eq same))
    ((hq.offset_le_iff hp line.symm).mp (Int.le_of_eq same.symm))⟩

theorem Coincides.spot_eq (h : p.Coincides q) (hp : p.Resolved content)
    (hq : q.Resolved content) : p.line = q.line ∧ p.lineOffset = q.lineOffset :=
  StandsIn.spot_eq hp (hq.standsIn h.version) h.offset

theorem StandsIn.sameOffset (hp : p.StandsIn old before) (hq : q.StandsIn old before)
    (same : p.offset = q.offset) {oldLine newLine : List Char} {N : Nat} (pos : 1 ≤ N)
    (hold : (plainLines before)[(p.line - 1).toNat]? = some oldLine)
    (hnew : (plainLines after)[N - 1]? = some newLine) (filled : newLine ≠ []) :
    Text.SameOffset (Text.placeAt p.tabSize (splitLines after) N (p.columnIn oldLine newLine))
      (Text.placeAt q.tabSize (splitLines after) N (q.columnIn oldLine newLine)) := by
  obtain ⟨line, spot⟩ := hp.spot_eq hq same
  obtain ⟨x, found, -, stands, onLine, -, place⟩ := hp.exists_place old pos hold hnew filled
  obtain ⟨y, found', -, stands', onLine', -, place'⟩ :=
    hq.exists_place old pos (line ▸ hold) hnew filled
  rw [found, found']
  refine .some (stands.offset_unique stands' (onLine.trans onLine'.symm) ?_)
  rw [line] at place
  split at place
  next kept =>
    rw [if_pos kept] at place'
    rw [place.2, place'.2, spot]
  next other =>
    rw [if_neg other] at place'
    rw [place.2, place'.2]

end Position

/-! ### Look-ups in a file -/

namespace File

variable {f : File}

theorem exists_text_of_fullLines {lines : List Text.Line} (h : f.fullLines.answer a = .ok lines) :
    ∃ text, f.text.answer a = .ok text ∧ lines = splitLines text := by
  obtain ⟨text, read, split⟩ := Work.exists_of_answer_bind h
  exact ⟨text, read, (Except.ok.inj split).symm⟩

theorem exists_text_of_lines {lines : List (List Char)} (h : f.lines.answer a = .ok lines) :
    ∃ text, f.text.answer a = .ok text ∧ lines = plainLines text := by
  obtain ⟨full, split, strip⟩ := Work.exists_of_answer_bind h
  obtain ⟨text, read, rfl⟩ := exists_text_of_fullLines split
  exact ⟨text, read, (Except.ok.inj strip).symm⟩

section Tabs

variable (known : o.file f) {tab tab' : Int} (htab : 1 ≤ tab) (htab' : 1 ≤ tab')

theorem coincides_of_sameOffset {x y : Option Text.Place} (h : Text.SameOffset x y) :
    Option.Rel Position.Coincides (x.map fun place => (⟨place, f, tab, htab⟩ : Position))
      (y.map fun place => ⟨place, f, tab', htab'⟩) := by
  cases h with
  | none => exact .none
  | some same => exact .some ⟨rfl, same⟩

include known htab htab'

theorem agrees_positionAt {line column column' : Int} (hcolumn : 1 ≤ column)
    (hcolumn' : 1 ≤ column')
    (same : ∀ text, f.text.answer a = .ok text →
      Text.SameOffset (Text.placeAt tab (splitLines text) line column)
        (Text.placeAt tab' (splitLines text) line column')) :
    (f.positionAt line column tab).Agrees (f.positionAt line column' tab') o a
      (Option.Rel Position.Coincides) := by
  have passes : ∀ {n : Int} {m : Misuse}, 1 ≤ n → Work.require (1 ≤ n) m = pure () :=
    fun h => if_pos h
  have consults := Work.Consults.modular o a
  unfold positionAt
  rw [passes hcolumn, passes hcolumn', pure_bind, pure_bind, dif_pos htab, dif_pos htab']
  apply Work.Agrees.bind_same (consults.require _ _)
  intro _ _
  apply Work.Agrees.bind_same (modular_fullLines consults (consults_bytes known))
  intro lines answer
  obtain ⟨text, read, rfl⟩ := exists_text_of_fullLines answer
  exact .pure (coincides_of_sameOffset htab htab' (same text read))

theorem agrees_positionOf (offset : Int) :
    (f.positionOf offset tab).Agrees (f.positionOf offset tab') o a
      (Option.Rel Position.Coincides) := by
  have consults := Work.Consults.modular o a
  unfold positionOf
  rw [dif_pos htab, dif_pos htab']
  apply Work.Agrees.bind_same (consults.require _ _)
  intro _ _
  apply Work.Agrees.bind_same (modular_fullLines consults (consults_bytes known))
  intro lines _
  exact .pure (coincides_of_sameOffset htab htab' (Text.sameOffset_placeOf htab htab' lines offset))

theorem agrees_endOfLine (line : Int) :
    (f.endOfLine line tab).Agrees (f.endOfLine line tab') o a
      (Option.Rel Position.Coincides) := by
  have consults := Work.Consults.modular o a
  unfold endOfLine
  apply Work.Agrees.bind_same (consults.require _ _)
  intro _ _
  apply Work.Agrees.bind_same (modular_fullLines consults (consults_bytes known))
  intro lines _
  cases Text.lastOffset lines line with
  | none => exact .pure .none
  | some offset => exact agrees_positionOf known htab htab' offset

end Tabs
end File

/-! ### Positions -/

namespace Position

variable {p q : Position} (tells : a.Tells o content) (coincide : p.Coincides q)
  (hp : p.Resolved content) (hq : q.Resolved content)
include tells coincide hp hq

/-- Whatever layout is applied to them, positions that coincide become nothing or positions
that coincide. -/
theorem agrees_applyLayout {old new : File} (oldKnown : o.file old) (newKnown : o.file new)
    (version : old.version = p.file.version) (layout : Layout) :
    (p.applyLayout old new layout).Agrees (q.applyLayout old new layout) o a
      (Option.Rel Coincides) := by
  have consults := Work.Consults.modular o a
  have newLines := File.modular_lines consults (File.consults_bytes newKnown)
  have oldLines := File.modular_lines consults (File.consults_bytes oldKnown)
  have stands := hp.standsIn version
  have stands' := hq.standsIn (version.trans coincide.version)
  obtain ⟨line, -⟩ := coincide.spot_eq hp hq
  unfold applyLayout
  rw [← line]
  by_cases gone : layout.deletes p.line = true
  · rw [if_pos gone, if_pos gone]
    exact .pure .none
  rw [if_neg gone, if_neg gone]
  apply Work.Agrees.bind_same newLines
  intro lines answer
  obtain ⟨after, newText, rfl⟩ := File.exists_text_of_lines answer
  by_cases above : layout.mapLine p.line < 1
  · rw [if_pos above, if_pos above]
    exact .pure .none
  rw [if_neg above, if_neg above]
  obtain ⟨N, moved⟩ : ∃ N : Nat, layout.mapLine p.line = N :=
    ⟨(layout.mapLine p.line).toNat, by omega⟩
  have pos : 1 ≤ N := by omega
  have index : ((N : Int) - 1).toNat = N - 1 := by omega
  rw [moved, index]
  cases hnew : (plainLines after)[N - 1]? with
  | none => exact .pure .none
  | some newLine =>
    cases newLine with
    | nil => exact .pure .none
    | cons ch rest =>
      apply Work.Agrees.bind_same oldLines
      intro lines answer
      obtain ⟨before, oldText, rfl⟩ := File.exists_text_of_lines answer
      obtain rfl := tells old oldKnown before oldText
      obtain ⟨oldLine, hold, -⟩ := stands.exists_plain
      rw [hold]
      apply (File.agrees_positionAt newKnown p.one_le_tabSize q.one_le_tabSize
        (p.one_le_columnIn oldLine _) (q.one_le_columnIn oldLine _) ?_).bind
      · intro x y _ _ related
        cases related with
        | none => exact .throw _ _
        | some found => exact .pure (.some found)
      · intro text read
        obtain rfl : after = text := Except.ok.inj (newText.symm.trans read)
        exact stands.sameOffset stands' coincide.offset pos hold hnew (List.cons_ne_nil _ _)

theorem agrees_apply {c : Change} (known : o.change c) :
    (p.apply c).Agrees (q.apply c) o a (Option.Rel Coincides) := by
  unfold apply
  cases hold : c.old with
  | none => exact .throw _ _
  | some old =>
    dsimp only
    rw [← coincide.version]
    by_cases version : old.version = p.file.version
    · rw [if_neg fun ne => ne version, if_neg fun ne => ne version]
      cases hnew : c.new with
      | none => exact .pure .none
      | some new =>
        have files := o.file_of_change c known
        apply Work.Agrees.bind_same (Change.consults_diff known)
        intro diff _
        exact agrees_applyLayout tells coincide hp hq
          (files old (Change.mem_files.mpr (.inl hold)))
          (files new (Change.mem_files.mpr (.inr hnew))) version _
    · rw [if_pos version, if_pos version]
      exact .throw _ _

end Position

/-! ### Ranges -/

namespace Range

theorem Coincides.span_eq {r s : Range} (h : r.Coincides s) : r.span = s.span := by
  unfold span file
  rw [h.first.version, h.first.offset, h.last.offset]

theorem agrees_made {p q p' q' : Position} (first : p.Coincides p') (last : q.Coincides q') :
    Work.Agrees
      (match ofPositions? p q with
        | .ok r => pure (some r)
        | .error issues => throw (.invalid issues) : Work (Option Range))
      (match ofPositions? p' q' with
        | .ok r => pure (some r)
        | .error issues => throw (.invalid issues)) o a (Option.Rel Coincides) := by
  have version : p.file.version = q.file.version ↔ p'.file.version = q'.file.version := by
    rw [first.version, last.version]
  have le : p.offset ≤ q.offset ↔ p'.offset ≤ q'.offset := by rw [first.offset, last.offset]
  unfold ofPositions?
  by_cases one : p.file.version = q.file.version
  · by_cases ordered : p.offset ≤ q.offset
    · rw [dif_pos one, dif_pos ordered, dif_pos (version.mp one), dif_pos (le.mp ordered)]
      exact .pure (.some ⟨first, last⟩)
    · rw [dif_pos one, dif_neg ordered, dif_pos (version.mp one),
        dif_neg fun h => ordered (le.mpr h)]
      exact .throw _ _
  · rw [dif_neg one, dif_neg fun h => one (version.mpr h)]
    exact .throw _ _

/-- The range of whole lines of a file is the same one. -/
theorem agrees_ofLines {new : File} (known : o.file new) (first last : Int) {tab tab' : Int}
    (htab : 1 ≤ tab) (htab' : 1 ≤ tab') :
    (ofLines new first last tab).Agrees (ofLines new first last tab') o a
      (Option.Rel Coincides) := by
  have unresolved : Work.Agrees (do
      Work.note (.linesUnresolved first last new.name)
      pure none : Work (Option Range)) (do
      Work.note (.linesUnresolved first last new.name)
      pure none) o a (Option.Rel Coincides) :=
    .bind_note Level.noConfusion Level.noConfusion (.pure .none)
  have begins : (new.positionAt first 1 tab).Agrees (new.positionAt first 1 tab') o a
      (Option.Rel Position.Coincides) :=
    File.agrees_positionAt known htab htab' (Int.le_refl 1) (Int.le_refl 1)
      fun text _ => Text.sameOffset_placeAt_one tab tab' (splitLines text) first
  apply begins.bind
  intro begin? begin?' _ _ hbegin
  apply (File.agrees_endOfLine known htab htab' last).bind
  intro end? end?' _ _ hend
  cases hbegin with
  | none => exact unresolved
  | @some p p' hp =>
    cases hend with
    | none => exact unresolved
    | @some q q' hq =>
      dsimp only
      rw [← hp.offset, ← hq.offset]
      by_cases le : p.offset ≤ q.offset
      · rw [if_pos le, if_pos le]
        exact agrees_made hp hq
      · rw [if_neg le, if_neg le]
        exact unresolved

section Translate

variable {r s : Range} {c : Change} (tells : a.Tells o content) (coincide : r.Coincides s)
  (hr : r.Resolved content) (hs : s.Resolved content)
include coincide hr hs

/-- A range is estimated by its lines, and these are the same. -/
theorem agrees_estimate {new : File} (known : o.file new) (diff : List LineChange) :
    (r.estimate new diff).Agrees (s.estimate new diff) o a (Option.Rel Coincides) := by
  obtain ⟨first, -⟩ := coincide.first.spot_eq hr.first hs.first
  obtain ⟨last, -⟩ := coincide.last.spot_eq hr.last hs.last
  have consults := Work.Consults.modular o a
  unfold estimate
  rw [← first, ← last]
  apply Work.Agrees.bind_same (File.modular_fullLines consults (File.consults_bytes known))
  intro lines _
  dsimp only
  cases estimateLines r.first.line r.last.line
      ((diff.filter LineChange.isDelete).map LineChange.line) lines.length with
  | none => exact .bind_note Level.noConfusion Level.noConfusion (.pure .none)
  | some ends =>
    obtain ⟨m, n⟩ := ends
    dsimp only
    by_cases below : m < 1 ∨ n < 1
    · rw [if_pos below, if_pos below]
      exact .pure .none
    · rw [if_neg below, if_neg below]
      exact agrees_ofLines known m n r.first.one_le_tabSize s.first.one_le_tabSize

include tells

theorem agrees_apply (known : o.change c) :
    (r.apply c).Agrees (s.apply c) o a (Option.Rel Coincides) := by
  apply (Position.agrees_apply tells coincide.first hr.first hs.first known).bind
  intro first? first?' _ _ hfirst
  apply (Position.agrees_apply tells coincide.last hr.last hs.last known).bind
  intro last? last?' _ _ hlast
  cases hfirst with
  | none => exact .pure .none
  | @some p p' hp =>
    cases hlast with
    | none => exact .pure .none
    | @some q q' hq =>
      dsimp only
      rw [← hp.offset, ← hq.offset]
      by_cases le : p.offset ≤ q.offset
      · rw [if_pos le, if_pos le]
        exact agrees_made hp hq
      · rw [if_neg le, if_neg le]
        exact .pure .none

/-- Ranges that coincide, found with whatever tab sizes, are translated to nothing or to ranges
that coincide, or it fails for both. -/
theorem agrees_translate (known : o.change c) :
    (r.translate c).Agrees (s.translate c) o a (Option.Rel Coincides) := by
  apply (agrees_apply tells coincide hr hs known).bind
  intro moved moved' _ _ related
  cases related with
  | some same => exact .pure (.some same)
  | none =>
    dsimp only
    cases hnew : c.new with
    | none => exact .pure .none
    | some new =>
      have newKnown := o.file_of_change c known new (Change.mem_files.mpr (.inr hnew))
      apply Work.Agrees.bind_same (Change.consults_diff known)
      intro diff _
      exact agrees_estimate coincide hr hs newKnown diff

end Translate
end Range
end Lineage
