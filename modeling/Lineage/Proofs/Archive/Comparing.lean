/-
# Comparing

A change compares its two files once: the diff is kept, and from then on it is
the diff of the change whatever becomes of the files. So comparing is steady,
and so is everything that is worked out from diffs and texts. The translation of
positions and ranges is made of asking for the diff and of reading the files of the
change (`Range.modular_translate`).

Key definitions: `Change.files`, `Change.bothLines`, `Change.recorded`.
Key theorems: `Change.run_diff_unkept`, `Change.steady_diff`, `Range.modular_translate`.
-/
import Lineage.Proofs.Archive.Reading
import Lineage.Translation

namespace Lineage

/-! ### Changes -/

namespace Change

/-- The files of a change. -/
def files (c : Change) : List File :=
  c.old.toList ++ c.new.toList

theorem mem_files {c : Change} {f : File} : f ∈ c.files ↔ c.old = some f ∨ c.new = some f := by
  simp [files]

/-- The lines of both sides of a change. -/
def bothLines (c : Change) : Work (List (List Char) × List (List Char)) := do
  let old ← linesOf c.old
  let new ← linesOf c.new
  return (old, new)

section Modular

variable {P : ∀ α : Type, Work α → Prop} (hP : Work.Modular P)
include hP

theorem modular_linesOf {f : Option File} (bytes : ∀ g, f = some g → P _ g.bytes) :
    P _ (linesOf f) := by
  cases f with
  | none => exact hP.pure _
  | some f =>
    have here := bytes f rfl
    apply hP.bind (File.modular_isBinary hP here)
    intro binary
    cases binary with
    | true => exact hP.bind (hP.throw _) fun _ => File.modular_lines hP here
    | false => exact File.modular_lines hP here

theorem modular_bothLines {c : Change} (bytes : ∀ f ∈ c.files, P _ f.bytes) :
    P _ c.bothLines := by
  apply hP.bind (modular_linesOf hP fun f hf => bytes f (mem_files.mpr (.inl hf)))
  intro old
  apply hP.bind (modular_linesOf hP fun f hf => bytes f (mem_files.mpr (.inr hf)))
  intro new
  exact hP.pure _

end Modular

theorem reads_linesOf (f : Option File) : (linesOf f).Reads :=
  modular_linesOf Work.Reads.modular fun f _ => f.reads_bytes

theorem reads_bothLines (c : Change) : c.bothLines.Reads :=
  modular_bothLines Work.Reads.modular fun f _ => f.reads_bytes

theorem unkept_after_bothLines {c : Change} {a : Archive} (hk : a.diffs c.handle = none) :
    (c.bothLines.after a).diffs c.handle = none := by
  rw [c.reads_bothLines.diffs, hk]

theorem run_diff_kept {c : Change} (hc : c.origin = .compared) {a : Archive}
    {diff : List LineChange} (h : a.diffs c.handle = some diff) : c.diff.run a = (.ok diff, a) := by
  unfold Change.diff
  rw [hc]
  simp only [Work.run_eq, Work.after_bind_ok (Work.answer_get a),
    Work.answer_bind_ok (Work.answer_get a), Work.after_get, h, Work.answer_pure, Work.after_pure]

/-- Notes that a diff was computed, and keeps it. -/
def record (c : Change) (diff : List LineChange) : Work (List LineChange) := do
  Work.note (.compared diff.length (← c.text))
  modify fun a => a.keepDiff c.handle diff
  pure diff

theorem run_record (c : Change) (diff : List LineChange) (a : Archive) :
    (c.record diff).run a =
      match c.text with
      | .ok text =>
        (.ok diff, ((Work.note (.compared diff.length text)).after a).keepDiff c.handle diff)
      | .error e => (.error e, a) := by
  unfold record
  cases h : c.text with
  | ok text => rfl
  | error e => rfl

/-- A diff that is not kept is computed from the lines of both sides, and then kept. -/
theorem run_diff_computed {c : Change} (hc : c.origin = .compared) {a : Archive}
    (h : a.diffs c.handle = none) :
    c.diff.run a =
      (c.bothLines >>= fun lines => c.record (lineDiff lines.1 lines.2)).run a := by
  unfold Change.diff
  rw [hc]
  simp only [bothLines, bind_assoc, pure_bind, Work.run_eq,
    Work.after_bind_ok (Work.answer_get a), Work.answer_bind_ok (Work.answer_get a),
    Work.after_get, h]
  rfl

/-- The archive once a diff is noted and kept. -/
def recorded (c : Change) (diff : List LineChange) (text : String) (a : Archive) : Archive :=
  ((Work.note (.compared diff.length text)).after a).keepDiff c.handle diff

/-- The three ways in which a diff that is not kept is asked for: a side has no lines, the
change cannot be named in the log, or the diff of the lines is noted and kept. -/
theorem run_diff_unkept {c : Change} (hc : c.origin = .compared) {a : Archive}
    (hk : a.diffs c.handle = none) :
    (∃ e, c.bothLines.answer a = .error e ∧
      c.diff.run a = (.error e, c.bothLines.after a)) ∨
    (∃ lines e, c.bothLines.answer a = .ok lines ∧ c.text = .error e ∧
      c.diff.run a = (.error e, c.bothLines.after a)) ∨
    (∃ lines text, c.bothLines.answer a = .ok lines ∧ c.text = .ok text ∧
      c.diff.run a = (.ok (lineDiff lines.1 lines.2),
        c.recorded (lineDiff lines.1 lines.2) text (c.bothLines.after a))) := by
  rw [run_diff_computed hc hk, Work.run_bind, Work.run_eq]
  cases c.bothLines.answer a with
  | error e => exact .inl ⟨e, rfl, rfl⟩
  | ok lines =>
    have record := run_record c (lineDiff lines.1 lines.2) (c.bothLines.after a)
    cases ht : c.text with
    | error e =>
      rw [ht] at record
      exact .inr (.inl ⟨lines, e, rfl, rfl, record⟩)
    | ok text =>
      rw [ht] at record
      exact .inr (.inr ⟨lines, text, rfl, rfl, record⟩)

theorem answer_diff_unkept {c : Change} (hc : c.origin = .compared) {a : Archive}
    (hk : a.diffs c.handle = none) :
    c.diff.answer a =
      c.bothLines.answer a >>= fun lines => c.text.map fun _ => lineDiff lines.1 lines.2 := by
  obtain ⟨e, hl, run⟩ | ⟨lines, e, hl, ht, run⟩ | ⟨lines, text, hl, ht, run⟩ :=
    run_diff_unkept hc hk
  · rw [Work.answer_of_run run, hl]
    rfl
  · rw [Work.answer_of_run run, hl, ht]
    rfl
  · rw [Work.answer_of_run run, hl, ht]
    rfl

theorem within_recorded {c : Change} {a : Archive} (hk : a.diffs c.handle = none)
    (diff : List LineChange) (text : String) : a.Within (c.recorded diff text a) := by
  let noted := (Work.note (.compared diff.length text)).after a
  have keeps : noted.Within (c.recorded diff text a) :=
    Archive.Within.keepDiff (a := noted) hk diff
  exact .trans (.note _ a) keeps

/-- A computed diff is kept from then on, and nothing that was kept is lost. -/
theorem after_diff {c : Change} (hc : c.origin = .compared) (a : Archive) :
    a.Within (c.diff.after a) ∧
      ∀ diff, c.diff.answer a = .ok diff → (c.diff.after a).diffs c.handle = some diff := by
  cases hk : a.diffs c.handle with
  | some kept =>
    have run := run_diff_kept hc hk
    rw [Work.answer_of_run run, Work.after_of_run run]
    exact ⟨.refl a, fun diff h => by rw [hk, Except.ok.inj h]⟩
  | none =>
    have reading := c.reads_bothLines
    have unkept := unkept_after_bothLines hk
    obtain ⟨e, -, run⟩ | ⟨lines, e, -, -, run⟩ | ⟨lines, text, -, -, run⟩ := run_diff_unkept hc hk
    · rw [Work.answer_of_run run, Work.after_of_run run]
      exact ⟨reading.keeps a, fun diff h => by cases h⟩
    · rw [Work.answer_of_run run, Work.after_of_run run]
      exact ⟨reading.keeps a, fun diff h => by cases h⟩
    · rw [Work.answer_of_run run, Work.after_of_run run]
      refine ⟨(reading.keeps a).trans (within_recorded unkept _ text), fun diff h => ?_⟩
      rw [recorded, Archive.diffs_keepDiff, if_pos rfl, Except.ok.inj h]

theorem steady_diff (c : Change) : c.diff.Steady := by
  cases hc : c.origin with
  | scripted diff =>
    unfold Change.diff
    rw [hc]
    exact (Work.Reads.pure _).toSteady
  | compared =>
    refine ⟨fun a => (after_diff hc a).1, fun h _ hb => ?_⟩
    exact Work.answer_of_run (run_diff_kept hc (hb.diffs _ _ ((after_diff hc _).2 _ h)))

end Change

/-! ### Translations -/

section Modular

variable {P : ∀ α : Type, Work α → Prop} (hP : Work.Modular P)
include hP

theorem Position.modular_applyLayout (p : Position) {old new : File} (oldBytes : P _ old.bytes)
    (newBytes : P _ new.bytes) (layout : Layout) : P _ (p.applyLayout old new layout) := by
  unfold Position.applyLayout
  split
  · exact hP.pure _
  · apply hP.bind (File.modular_lines hP newBytes)
    intro newLines
    split
    · exact hP.pure _
    · split
      · exact hP.pure _
      · exact hP.pure _
      · apply hP.bind (File.modular_lines hP oldBytes)
        intro oldLines
        split
        · exact hP.throw _
        · apply hP.bind (File.modular_positionAt hP newBytes _ _ _)
          intro found
          cases found with
          | some q => exact hP.pure _
          | none => exact hP.throw _

section Change

variable {c : Change} (bytes : ∀ f ∈ c.files, P _ f.bytes) (diff : P _ c.diff)
include bytes diff

theorem Position.modular_apply (p : Position) : P _ (p.apply c) := by
  unfold Position.apply
  split
  · exact hP.throw _
  next hold =>
    split
    · exact hP.throw _
    · split
      · exact hP.pure _
      next hnew =>
        have old := bytes _ (Change.mem_files.mpr (.inl hold))
        have new := bytes _ (Change.mem_files.mpr (.inr hnew))
        exact hP.bind diff fun _ => p.modular_applyLayout hP old new _

theorem Range.modular_apply (r : Range) : P _ (r.apply c) := by
  apply hP.bind (r.first.modular_apply hP bytes diff)
  intro first
  apply hP.bind (r.last.modular_apply hP bytes diff)
  intro last
  split
  · split
    · split
      · exact hP.pure _
      · exact hP.throw _
    · exact hP.pure _
  · exact hP.pure _

end Change

namespace Range

theorem modular_ofLines {file : File} (bytes : P _ file.bytes) (first last tab : Int) :
    P _ (ofLines file first last tab) := by
  have unresolved : P _ (do
      Work.note (.linesUnresolved first last file.name)
      pure none : Work (Option Range)) :=
    hP.bind (hP.note _ Level.noConfusion) fun _ => hP.pure _
  apply hP.bind (File.modular_positionAt hP bytes _ _ _)
  intro begin?
  apply hP.bind (File.modular_endOfLine hP bytes _ _)
  intro end?
  split
  · split
    · split
      · exact hP.pure _
      · exact hP.throw _
    · exact unresolved
  · exact unresolved

theorem modular_estimate (r : Range) {new : File} (bytes : P _ new.bytes)
    (diff : List LineChange) : P _ (r.estimate new diff) := by
  apply hP.bind (File.modular_fullLines hP bytes)
  intro lines
  dsimp only
  split
  · exact hP.bind (hP.note _ Level.noConfusion) fun _ => hP.pure _
  · split
    · exact hP.pure _
    · exact modular_ofLines hP bytes _ _ _

theorem modular_translate {c : Change} (bytes : ∀ f ∈ c.files, P _ f.bytes) (diff : P _ c.diff)
    (r : Range) : P _ (r.translate c) := by
  apply hP.bind (r.modular_apply hP bytes diff)
  intro moved
  cases moved with
  | some moved => exact hP.pure _
  | none =>
    cases hnew : c.new with
    | none => exact hP.pure _
    | some new =>
      have newBytes := bytes new (Change.mem_files.mpr (.inr hnew))
      exact hP.bind diff fun _ => r.modular_estimate hP newBytes _

end Range

end Modular
end Lineage
