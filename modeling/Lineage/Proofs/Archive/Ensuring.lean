/-
# Work that succeeds

Work that is made of parts succeeds if each part does and leaves the next one what it
needs. What reading and comparing needs are files with texts: as long as two of them that
share a handle are one file, every reading finds the text of its file, whatever has been
read and kept in between (`File.ensures_text`). So the look-ups in such files succeed, and
so does a change between them, whatever diff it carries (`Change.ensures_diff`).

Key definitions: `Work.Ensures`, `Archive.Holds`.
Key theorems: `File.ensures_text`, `File.ensures_endOfLine`, `Change.ensures_diff`.
-/
import Lineage.Proofs.Archive.Settling
import Lineage.Proofs.Text.Offsets

namespace Lineage

open Text (plainLines splitLines)

/-- From every archive with an invariant the work answers, with a result that has a
property, and the archive that it leaves behind has the invariant again. -/
def Work.Ensures {α : Type} (w : Work α) (I : Archive → Prop) (P : α → Prop) : Prop :=
  ∀ a, I a → ∃ x, w.answer a = .ok x ∧ P x ∧ I (w.after a)

namespace Work

variable {α β : Type} {I : Archive → Prop} {P : α → Prop} {Q : β → Prop}

theorem Ensures.pure {x : α} (h : P x) : Ensures (Pure.pure x : Work α) I P :=
  fun _ ha => ⟨x, rfl, h, ha⟩

theorem Ensures.lift {e : Except Fault α} {x : α} (answer : e = .ok x) (h : P x) :
    Ensures (liftM e : Work α) I P := by
  intro a ha
  refine ⟨x, ?_, h, ?_⟩
  · rw [answer_lift, answer]
  · rwa [after_lift]

theorem Ensures.bind {w : Work α} {f : α → Work β} (hw : w.Ensures I P)
    (hf : ∀ x, P x → (f x).Ensures I Q) : (w >>= f).Ensures I Q := by
  intro a ha
  obtain ⟨x, hx, hp, left⟩ := hw a ha
  obtain ⟨y, hy, hq, left⟩ := hf x hp _ left
  refine ⟨y, ?_, hq, ?_⟩
  · rw [answer_bind_ok hx, hy]
  · rwa [after_bind_ok hx]

theorem Ensures.mono {P' : α → Prop} {w : Work α} (hw : w.Ensures I P) (h : ∀ x, P x → P' x) :
    w.Ensures I P' := by
  intro a ha
  obtain ⟨x, hx, hp, left⟩ := hw a ha
  exact ⟨x, hx, h x hp, left⟩

end Work

/-- The files of a scope can be read, each with the content of its version. -/
def Archive.Holds (scope : File → Prop) (content : Version → List Char) (a : Archive) : Prop :=
  ∀ f, scope f → f.text.answer a = .ok (content f.version)

section Holds

variable {scope : File → Prop} {content : Version → List Char} {f : File}

/-- What is noted or kept of diffs is no part of what files hold. -/
theorem Archive.Holds.congr {a b : Archive} (h : a.Holds scope content) (disk : b.disk = a.disk)
    (bytes : b.bytes = a.bytes) : b.Holds scope content := by
  intro f hf
  rw [File.answer_text_congr disk fun handle _ => congrFun bytes handle]
  exact h f hf

theorem Work.ensures_note (n : Notice) :
    (Work.note n).Ensures (Archive.Holds scope content) fun _ => True :=
  fun _ ha => ⟨(), rfl, trivial, ha.congr rfl rfl⟩

namespace File

section Files

variable (apart : ∀ f g, scope f → scope g → f.OneHandle g) (hf : scope f)
include apart hf

/-- Reading finds the text of the file and leaves the texts of the others as they are. -/
theorem ensures_text :
    f.text.Ensures (Archive.Holds scope content) fun text => text = content f.version := by
  intro a ha
  refine ⟨content f.version, ha f hf, rfl, fun g hg => ?_⟩
  exact answer_text_after (apart g f hg hf) (ha g hg)

theorem ensures_isBinary :
    f.isBinary.Ensures (Archive.Holds scope content) fun binary => binary = false := by
  intro a ha
  have run := run_isBinary_of_text (ha f hf)
  obtain ⟨-, -, -, left⟩ := ensures_text apart hf a ha
  rw [← Work.after_of_run run] at left
  exact ⟨false, Work.answer_of_run run, rfl, left⟩

theorem ensures_fullLines :
    f.fullLines.Ensures (Archive.Holds scope content) fun lines =>
      lines = splitLines (content f.version) :=
  (ensures_text apart hf).bind fun _ ht => .pure (by rw [ht])

theorem ensures_lines :
    f.lines.Ensures (Archive.Holds scope content) fun lines =>
      lines = plainLines (content f.version) :=
  (ensures_fullLines apart hf).bind fun _ hl => .pure (by rw [hl]; rfl)

theorem ensures_positionAt {line column tab : Int} (hline : 1 ≤ line) (hcolumn : 1 ≤ column)
    (htab : 1 ≤ tab) :
    (f.positionAt line column tab).Ensures (Archive.Holds scope content) fun found =>
      found = (Text.placeAt tab (splitLines (content f.version)) line column).map fun place =>
        ⟨place, f, tab, htab⟩ := by
  unfold positionAt Work.require
  rw [if_pos hline, if_pos hcolumn, dif_pos htab, pure_bind, pure_bind]
  exact (ensures_fullLines apart hf).bind fun _ hl => .pure (by rw [hl])

theorem ensures_positionOf {offset tab : Int} (hoffset : 0 ≤ offset) (htab : 1 ≤ tab) :
    (f.positionOf offset tab).Ensures (Archive.Holds scope content) fun found =>
      ∀ p ∈ found, p.file = f := by
  unfold positionOf Work.require
  rw [if_pos hoffset, dif_pos htab, pure_bind]
  refine (ensures_fullLines apart hf).bind fun _ _ => .pure fun p hp => ?_
  obtain ⟨place, -, rfl⟩ := Option.map_eq_some_iff.mp hp
  rfl

/-- The look-up of the last character of a line succeeds. -/
theorem ensures_endOfLine {line tab : Int} (hline : 1 ≤ line) (htab : 1 ≤ tab) :
    (f.endOfLine line tab).Ensures (Archive.Holds scope content) fun found =>
      ∀ p ∈ found, p.file = f := by
  unfold endOfLine Work.require
  rw [if_pos hline, pure_bind]
  apply (ensures_fullLines apart hf).bind
  intro lines _
  cases ho : Text.lastOffset lines line with
  | none => exact .pure fun p hp => by cases hp
  | some offset => exact ensures_positionOf apart hf (Text.lastOffset_nonneg ho) htab

end Files

end File

/-! ### Changes -/

namespace Change

section Scope

variable {c : Change} (apart : ∀ f g, scope f → scope g → f.OneHandle g)
include apart

theorem ensures_linesOf {f : Option File} (hf : ∀ g, f = some g → scope g) :
    (linesOf f).Ensures (Archive.Holds scope content) fun _ => True := by
  cases f with
  | none => exact .pure trivial
  | some f =>
    have known : scope f := hf f rfl
    apply (File.ensures_isBinary apart known).bind
    rintro binary rfl
    exact (File.ensures_lines apart known).mono fun _ _ => trivial

theorem ensures_bothLines (known : ∀ f ∈ c.files, scope f) :
    c.bothLines.Ensures (Archive.Holds scope content) fun _ => True := by
  apply (ensures_linesOf apart fun f hf => known f (mem_files.mpr (.inl hf))).bind
  intro _ _
  apply (ensures_linesOf apart fun f hf => known f (mem_files.mpr (.inr hf))).bind
  intro _ _
  exact .pure trivial

/-- A change of files that can be read has a diff, be it given, kept or computed. -/
theorem ensures_diff (known : ∀ f ∈ c.files, scope f) (files : c.old ≠ none ∨ c.new ≠ none) :
    c.diff.Ensures (Archive.Holds scope content) fun _ => True := by
  intro a ha
  cases origin : c.origin with
  | scripted given =>
    have run : c.diff.run a = (.ok given, a) := by
      unfold diff
      rw [origin]
      rfl
    exact ⟨given, Work.answer_of_run run, trivial, by rwa [Work.after_of_run run]⟩
  | compared =>
    cases hk : a.diffs c.handle with
    | some kept =>
      have run := run_diff_kept origin hk
      exact ⟨kept, Work.answer_of_run run, trivial, by rwa [Work.after_of_run run]⟩
    | none =>
      obtain ⟨lines, hl, -, holds⟩ := ensures_bothLines apart known a ha
      obtain ⟨text, ht⟩ := exists_text_of_files files
      obtain ⟨e, lost, -⟩ | ⟨_, e, -, unnamed, -⟩ | ⟨lines', text', -, -, run⟩ :=
        run_diff_unkept origin hk
      · cases hl.symm.trans lost
      · cases ht.symm.trans unnamed
      · refine ⟨_, Work.answer_of_run run, trivial, ?_⟩
        rw [Work.after_of_run run]
        exact holds.congr rfl rfl

end Scope

end Change

end Holds
end Lineage
