/-
# Files with settled texts

A text that has been read is settled, and with it everything that is looked up in
the file: its lines and its positions. A change that compares two files settles the
texts of both when it computes its diff. From then on the diff that is kept is the
one between the two texts, in whatever order files are read (`Change.Compares.diff`).

Key definitions: `Change.Compares`, `Change.Sourced`.
Key theorems: `File.settled_positionAt`, `Change.Compares.diff`, `Change.Sourced.after_diff`.
-/
import Lineage.Proofs.Archive.Comparing
import Lineage.Proofs.Text.Looking

namespace Lineage

open Text (plainLines)

/-! ### Settled work -/

theorem Work.Settled.bind {α β : Type} {w : Work α} {f : α → Work β} {a : Archive} {x : α} {y : β}
    (steady : w.Steady) (hw : w.Settled a x) (hf : (f x).Settled a y) :
    (w >>= f).Settled a y := by
  intro b hb
  rw [Work.answer_bind_ok (hw b hb)]
  exact hf _ (hb.trans (steady.keeps b))

theorem Work.Settled.pure {α : Type} (x : α) (a : Archive) :
    Work.Settled (Pure.pure x : Work α) a x :=
  fun _ _ => rfl

namespace File

section Settled

variable {f : File} {a : Archive} {text : List Char}

theorem settled_lines (h : f.text.Settled a text) : f.lines.Settled a (plainLines text) :=
  fun b hb => answer_lines (h b hb)

/-- Looking up a line and a column in a settled text. -/
theorem settled_positionAt (h : f.text.Settled a text) {line column tab : Int} (hline : 1 ≤ line)
    (hcolumn : 1 ≤ column) (htab : 1 ≤ tab) :
    (f.positionAt line column tab).Settled a
      ((Text.placeAt tab (Text.splitLines text) line column).map fun place =>
        ⟨place, f, tab, htab⟩) :=
  fun b hb => answer_positionAt (h b hb) hline hcolumn htab

end Settled

theorem run_lines {f : File} {a : Archive} {text : List Char} (h : f.text.answer a = .ok text) :
    f.lines.run a = (.ok (plainLines text), f.text.after a) := by
  have full : f.fullLines.after a = f.text.after a := by
    unfold fullLines
    rw [Work.after_bind_ok h, Work.after_pure]
  rw [Work.run_eq, answer_lines h]
  unfold lines
  rw [Work.after_bind_ok (answer_fullLines h), full, Work.after_pure]
  rfl

theorem OneHandle.symm {f g : File} (h : f.OneHandle g) : g.OneHandle f :=
  fun same some => (h same.symm (same ▸ some)).symm

end File

/-! ### Changes that compare two files -/

namespace Change

/-- The text of one side of a change; a missing file has the empty one. -/
def sideText : Option File → Work (List Char)
  | none => pure []
  | some f => f.text

theorem reads_sideText (f : Option File) : (sideText f).Reads := by
  cases f with
  | none => exact .pure _
  | some f => exact f.reads_text

theorem run_linesOf {f : Option File} {a : Archive} {text : List Char}
    (h : (sideText f).answer a = .ok text) :
    (linesOf f).run a = (.ok (plainLines text), (sideText f).after a) := by
  cases f with
  | none =>
    rw [sideText, Work.answer_pure] at h
    rw [← Except.ok.inj h]
    rfl
  | some f =>
    have binary := File.run_isBinary_of_text h
    have again := File.run_lines (Work.answer_of_run (File.run_text_again h))
    unfold linesOf
    rw [Work.run_eq, Work.answer_bind_ok (Work.answer_of_run binary),
      Work.after_bind_ok (Work.answer_of_run binary), Work.after_of_run binary]
    simp only [Bool.false_eq_true, if_false]
    rw [Work.answer_of_run again, Work.after_of_run again,
      Work.after_of_run (File.run_text_again h)]
    rfl

/-- A side whose lines can be compared has a text, which is settled then. -/
theorem exists_text_of_linesOf {f : Option File} {a : Archive} {lines : List (List Char)}
    (h : (linesOf f).answer a = .ok lines) :
    ∃ text, lines = plainLines text ∧ (sideText f).Settled ((linesOf f).after a) text := by
  cases f with
  | none => exact ⟨[], (Except.ok.inj h).symm, Work.Settled.pure [] _⟩
  | some f =>
    unfold linesOf at h ⊢
    obtain ⟨binary, hb, h⟩ := Work.exists_of_answer_bind h
    rw [Work.after_bind_ok hb]
    cases binary with
    | true => cases h
    | false =>
      simp only [Bool.false_eq_true, if_false] at h ⊢
      obtain ⟨full, hfull, -⟩ := Work.exists_of_answer_bind h
      obtain ⟨text, ht, -⟩ := Work.exists_of_answer_bind hfull
      have run := File.run_lines ht
      rw [Work.answer_of_run run] at h
      rw [Work.after_of_run run]
      exact ⟨text, (Except.ok.inj h).symm, f.reads_text.settled ht⟩

theorem exists_kind_of_files {c : Change} (files : c.old ≠ none ∨ c.new ≠ none) :
    ∃ kind, c.kind = .ok kind := by
  unfold kind
  split
  · simp_all
  · exact ⟨_, rfl⟩
  · exact ⟨_, rfl⟩
  · exact ⟨_, rfl⟩

/-- A change of a file can be told in a message. -/
theorem exists_text_of_files {c : Change} (files : c.old ≠ none ∨ c.new ≠ none) :
    ∃ text, c.text = .ok text := by
  obtain ⟨kind, hk⟩ := exists_kind_of_files files
  unfold text
  rw [hk, Except.map]
  exact ⟨_, rfl⟩

/-- A diff that is kept of the change was computed by it. -/
def Sourced (c : Change) (a : Archive) : Prop :=
  ∀ diff, a.diffs c.handle = some diff → ∃ b : Archive, b.diffs c.handle = none ∧
    c.diff.answer b = .ok diff ∧ (c.diff.after b).Within a

theorem sourced_of_unkept {c : Change} {a : Archive} (h : a.diffs c.handle = none) :
    c.Sourced a := by
  intro diff hd
  rw [h] at hd
  cases hd

theorem diffs_after_of_error {c : Change} {a : Archive} {e : Fault} (hc : c.origin = .compared)
    (hk : a.diffs c.handle = none) (he : c.diff.answer a = .error e) :
    (c.diff.after a).diffs c.handle = none := by
  have unkept := unkept_after_bothLines hk
  obtain ⟨e', -, run⟩ | ⟨lines, e', -, -, run⟩ | ⟨lines, text, -, -, run⟩ := run_diff_unkept hc hk
  · rw [Work.after_of_run run, unkept]
  · rw [Work.after_of_run run, unkept]
  · rw [Work.answer_of_run run] at he
    cases he

/-- Asking for the diff leaves behind a diff that the change computed. -/
theorem Sourced.after_diff {c : Change} {a : Archive} (hc : c.origin = .compared)
    (h : c.Sourced a) : c.Sourced (c.diff.after a) := by
  intro diff hd
  cases hk : a.diffs c.handle with
  | some kept =>
    rw [Work.after_of_run (run_diff_kept hc hk)] at hd ⊢
    exact h diff hd
  | none =>
    cases hr : c.diff.answer a with
    | ok computed =>
      have kept := (Change.after_diff hc a).2 computed hr
      rw [hd] at kept
      exact ⟨a, hk, by rw [hr, Option.some.inj kept], .refl _⟩
    | error e =>
      rw [diffs_after_of_error hc hk hr] at hd
      cases hd

section Sides

variable {c : Change} {a : Archive} {before after : List Char}

theorem diff_of_lines (hc : c.origin = .compared) (files : c.old ≠ none ∨ c.new ≠ none)
    (hk : a.diffs c.handle = none) {lines : List (List Char) × List (List Char)}
    (hl : c.bothLines.answer a = .ok lines) :
    c.diff.answer a = .ok (lineDiff lines.1 lines.2) ∧
      (c.bothLines.after a).Within (c.diff.after a) := by
  have unkept := unkept_after_bothLines hk
  obtain ⟨text, ht⟩ := exists_text_of_files files
  obtain ⟨e, lost, -⟩ | ⟨_, e, -, unnamed, -⟩ | ⟨lines', text', hl', -, run⟩ :=
    run_diff_unkept hc hk
  · cases hl.symm.trans lost
  · cases ht.symm.trans unnamed
  · cases hl.symm.trans hl'
    rw [Work.answer_of_run run, Work.after_of_run run]
    exact ⟨rfl, within_recorded unkept _ text'⟩

/-- A diff that is computed is the one between the texts of both sides, and they are
settled then. -/
theorem exists_texts (hc : c.origin = .compared) (hk : a.diffs c.handle = none)
    {diff : List LineChange} (hd : c.diff.answer a = .ok diff) :
    ∃ before after, diff = lineDiff (plainLines before) (plainLines after) ∧
      (sideText c.old).Settled (c.diff.after a) before ∧
      (sideText c.new).Settled (c.diff.after a) after := by
  have unkept := unkept_after_bothLines hk
  obtain ⟨e, -, run⟩ | ⟨_, e, -, -, run⟩ | ⟨lines, text, hl, -, run⟩ := run_diff_unkept hc hk
  · cases hd.symm.trans (Work.answer_of_run run)
  · cases hd.symm.trans (Work.answer_of_run run)
  · have computed := hd.symm.trans (Work.answer_of_run run)
    have within := within_recorded unkept (lineDiff lines.1 lines.2) text
    rw [← Work.after_of_run run] at within
    unfold bothLines at hl within
    obtain ⟨left, hleft, hl⟩ := Work.exists_of_answer_bind hl
    obtain ⟨right, hright, hl⟩ := Work.exists_of_answer_bind hl
    obtain ⟨before, rfl, oldText⟩ := exists_text_of_linesOf hleft
    obtain ⟨after, rfl, newText⟩ := exists_text_of_linesOf hright
    rw [Work.after_bind_ok hleft, Work.after_bind_ok hright, Work.after_pure] at within
    rw [← Except.ok.inj hl] at computed
    exact ⟨before, after, Except.ok.inj computed,
      oldText.mono (((reads_linesOf _).keeps _).trans within), newText.mono within⟩

/-- A kept diff that its change computed is the one between the texts of both sides. -/
theorem Sourced.texts (h : c.Sourced a) (hc : c.origin = .compared) {diff : List LineChange}
    (kept : a.diffs c.handle = some diff) :
    ∃ before after, diff = lineDiff (plainLines before) (plainLines after) ∧
      (sideText c.old).Settled a before ∧ (sideText c.new).Settled a after := by
  obtain ⟨b, unkept, computed, within⟩ := h diff kept
  obtain ⟨before, after, same, oldText, newText⟩ := exists_texts hc unkept computed
  exact ⟨before, after, same, oldText.mono within, newText.mono within⟩

theorem run_bothLines (hb : (sideText c.old).answer a = .ok before)
    (hn : (sideText c.new).answer ((sideText c.old).after a) = .ok after) :
    c.bothLines.run a = (.ok (plainLines before, plainLines after),
      (sideText c.new).after ((sideText c.old).after a)) := by
  have left := run_linesOf hb
  have right := run_linesOf hn
  unfold bothLines
  rw [Work.run_eq, Work.answer_bind_ok (Work.answer_of_run left),
    Work.after_bind_ok (Work.answer_of_run left), Work.after_of_run left,
    Work.answer_bind_ok (Work.answer_of_run right),
    Work.after_bind_ok (Work.answer_of_run right), Work.after_of_run right, Work.answer_pure,
    Work.after_pure]

/-- The new side has its text still when the old one has been read. -/
theorem answer_sideText_after (apart : ∀ f ∈ c.old, ∀ g ∈ c.new, f.OneHandle g)
    (ha : (sideText c.new).answer a = .ok after) :
    (sideText c.new).answer ((sideText c.old).after a) = .ok after := by
  cases hn : c.new with
  | none => rwa [hn] at ha
  | some new =>
    rw [hn] at ha
    cases ho : c.old with
    | none => exact ha
    | some old => exact File.answer_text_after (apart old ho new hn).symm ha

/-- The diff of a change whose sides have texts is the one between their lines, computed now
or kept from before. -/
theorem diff_of_texts (hc : c.origin = .compared) (files : c.old ≠ none ∨ c.new ≠ none)
    (apart : ∀ f ∈ c.old, ∀ g ∈ c.new, f.OneHandle g) (sourced : c.Sourced a)
    (hb : (sideText c.old).answer a = .ok before) (ha : (sideText c.new).answer a = .ok after) :
    c.diff.answer a = .ok (lineDiff (plainLines before) (plainLines after)) ∧
      (sideText c.old).Settled (c.diff.after a) before ∧
      (sideText c.new).Settled (c.diff.after a) after := by
  have oldReads := reads_sideText c.old
  have newReads := reads_sideText c.new
  cases hk : a.diffs c.handle with
  | none =>
    have hn := answer_sideText_after apart ha
    have both := run_bothLines hb hn
    obtain ⟨computed, within⟩ := diff_of_lines hc files hk (Work.answer_of_run both)
    rw [Work.after_of_run both] at within
    exact ⟨computed, (oldReads.settled hb).mono ((newReads.keeps _).trans within),
      (newReads.settled hn).mono within⟩
  | some kept =>
    obtain ⟨before', after', rfl, oldText, newText⟩ := sourced.texts hc hk
    have run := run_diff_kept hc hk
    have sameOld := oldText.answer
    have sameNew := newText.answer
    rw [hb] at sameOld
    rw [ha] at sameNew
    obtain rfl := Except.ok.inj sameOld
    obtain rfl := Except.ok.inj sameNew
    rw [Work.answer_of_run run, Work.after_of_run run]
    exact ⟨rfl, oldText, newText⟩

end Sides

/-- The change compares two files. -/
structure Compares (c : Change) (old new : File) : Prop where
  origin : c.origin = .compared
  old : c.old = some old
  new : c.new = some new

/-- The diff of two files with texts is the one between their lines. -/
theorem Compares.diff {c : Change} {old new : File} {a : Archive} {before after : List Char}
    (hc : c.Compares old new) (apart : old.OneHandle new) (sourced : c.Sourced a)
    (hb : old.text.answer a = .ok before) (ha : new.text.answer a = .ok after) :
    c.diff.answer a = .ok (lineDiff (plainLines before) (plainLines after)) ∧
      old.text.Settled (c.diff.after a) before ∧ new.text.Settled (c.diff.after a) after := by
  have files : c.old ≠ none ∨ c.new ≠ none := by simp [hc.old]
  have between : ∀ f ∈ c.old, ∀ g ∈ c.new, f.OneHandle g := by
    rw [hc.old, hc.new]
    rintro f ⟨⟩ g ⟨⟩
    exact apart
  have oldSide : sideText c.old = old.text := by rw [hc.old, sideText]
  have newSide : sideText c.new = new.text := by rw [hc.new, sideText]
  rw [← oldSide] at hb ⊢
  rw [← newSide] at ha ⊢
  exact diff_of_texts hc.origin files between sourced hb ha

end Change
end Lineage
