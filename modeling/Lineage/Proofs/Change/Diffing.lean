/-
# The diff of a change

A change that compares its files answers with a diff as soon as the files that it has are
readable, whether it adds a file, removes one, or has both. The diff edits the old lines
into the new ones, and the change grows its file by as many lines as the new side has more
(`Change.diff_script`).

Key theorems: `Change.diff_script`.
-/
import Lineage.Proofs.Archive.Settling
import Lineage.Proofs.Diff.Replaying

namespace Lineage.Change

open Text (plainLines)

/-- The diff of a change whose files are readable edits the lines of the old side into those
of the new side, and its balance is the difference of their numbers. -/
theorem diff_script {c : Change} {a : Archive} {before after : List Char}
    (hc : c.origin = .compared) (files : c.old ≠ none ∨ c.new ≠ none)
    (apart : ∀ f ∈ c.old, ∀ g ∈ c.new, f.OneHandle g) (sourced : c.Sourced a)
    (hb : (sideText c.old).answer a = .ok before) (ha : (sideText c.new).answer a = .ok after) :
    let old := plainLines before
    let new := plainLines after
    ∃ diff, c.diff.answer a = .ok diff ∧ EditScript old new (Hunk.between old new) diff ∧
      c.delta.answer a = .ok ((new.length : Int) - old.length) := by
  intro old new
  obtain ⟨computed, -, -⟩ := diff_of_texts hc files apart sourced hb ha
  have script : EditScript old new (Hunk.between old new) (lineDiff old new) := .lineDiff old new
  refine ⟨lineDiff old new, computed, script, ?_⟩
  unfold delta
  rw [Work.answer_bind_ok computed, Work.answer_pure, script.balance]

/-- A file that is added brings all its lines. -/
theorem diff_script_added :
    let new : File := ⟨⟨"a", "r1"⟩, .memory ['k', '\r', '\n', 'k']⟩
    let c : Change := ⟨0, none, some new, .compared⟩
    c.Sourced .empty ∧ ∃ diff, c.diff.answer .empty = .ok diff ∧
      LineChange.replay 0 0 [] diff = some [['k'], ['k']] ∧ c.delta.answer .empty = .ok 2 := by
  intro new c
  have sourced : c.Sourced .empty := sourced_of_unkept rfl
  have files : c.old ≠ none ∨ c.new ≠ none := .inr (Option.some_ne_none new)
  have apart : ∀ f ∈ c.old, ∀ g ∈ c.new, f.OneHandle g := fun f hf => by cases hf
  have old : (sideText c.old).answer .empty = .ok [] := rfl
  have text : (sideText c.new).answer .empty = .ok ['k', '\r', '\n', 'k'] := rfl
  obtain ⟨diff, answer, script, delta⟩ := diff_script rfl files apart sourced old text
  exact ⟨sourced, diff, answer, script.replay, delta⟩

end Lineage.Change
