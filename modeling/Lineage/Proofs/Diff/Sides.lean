/-
# Lines beside an edit

The lines that a diff does not name are the same on both sides, in one order. So where it
names no line up to some place, the texts begin with the same lines; and where it names
none from some place on, they end with the same lines, which are moved by the balance of
the diff. A line beside all edits is found again that much further down.

Key definitions: `LineChange.Beside`.
Key theorems: `EditScript.take_eq`, `EditScript.drop_eq`, `EditScript.same_line`,
`Layout.mapLine_beside`.
-/
import Lineage.Proofs.Diff.Replaying
import Lineage.Proofs.Layout.Moving
import Lineage.Proofs.Layout.Ordering

namespace Lineage

namespace LineChange

/-- A diff changes lines on one side only of the lines from a first to a last one, which are
moved by a number then: not at all by edits below them, and by their balance by edits above
them. Insertions are numbered in the new text. -/
inductive Beside (diff : List LineChange) (first last : Int) : Int → Prop
  | below (beyond : ∀ c ∈ diff, last < c.line) : Beside diff first last 0
  | above (deletes : ∀ c ∈ diff, c.isDelete = true → c.line < first)
    (inserts : ∀ c ∈ diff, c.isInsert = true → c.line < first + Change.balance diff) :
    Beside diff first last (Change.balance diff)

theorem Beside.line {diff : List LineChange} {first last shift line : Int}
    (h : Beside diff first last shift) (le : first ≤ line) (le' : line ≤ last) :
    Beside diff line line shift := by
  cases h with
  | below beyond => exact .below fun c hc => Int.lt_of_le_of_lt le' (beyond c hc)
  | above deletes inserts =>
    refine .above (fun c hc kind => Int.lt_of_lt_of_le (deletes c hc kind) le) fun c hc kind => ?_
    have before := inserts c hc kind
    omega

variable {kind : Kind} {diff : List LineChange} {lines : List (List Char)}

theorem not_names {n : Nat} (h : ∀ c ∈ diff, c.kind = kind → c.line ≠ n) :
    names kind diff n = false := by
  simpa [names] using h

theorem length_untouched_le : ∀ (k : Nat) (ls : List (List Char)),
    (untouched kind diff k ls).length ≤ ls.length
  | _, [] => Nat.le_refl _
  | k, l :: ls => by
    have rest := length_untouched_le (k + 1) ls
    rw [untouched, List.length_cons]
    split
    · omega
    · rw [List.length_cons]
      omega

/-- Up to a place before all changes every line is left. -/
theorem untouched_take {E : Nat} (h : ∀ c ∈ diff, c.kind = kind → (E : Int) < c.line) :
    untouched kind diff 0 lines =
      lines.take E ++ untouched kind diff (lines.take E).length (lines.drop E) := by
  have left : untouched kind diff 0 (lines.take E) = lines.take E := by
    refine untouched_of_names false fun n _ le => ?_
    rw [List.length_take] at le
    apply not_names
    intro c hc same line
    have beyond := h c hc same
    omega
  calc untouched kind diff 0 lines
      = untouched kind diff 0 (lines.take E ++ lines.drop E) := by rw [List.take_append_drop]
    _ = _ := by rw [untouched_append, left, Nat.zero_add]

/-- From a place behind all changes every line is left. -/
theorem untouched_drop {B : Nat} (bound : B ≤ lines.length)
    (h : ∀ c ∈ diff, c.kind = kind → c.line ≤ B) :
    untouched kind diff 0 lines = untouched kind diff 0 (lines.take B) ++ lines.drop B := by
  have left : untouched kind diff B (lines.drop B) = lines.drop B := by
    refine untouched_of_names false fun n lt _ => ?_
    apply not_names
    intro c hc same line
    have before := h c hc same
    omega
  calc untouched kind diff 0 lines
      = untouched kind diff 0 (lines.take B ++ lines.drop B) := by rw [List.take_append_drop]
    _ = _ := by rw [untouched_append, List.length_take_of_le bound, Nat.zero_add, left]

end LineChange

namespace EditScript

open LineChange (untouched_take untouched_drop length_untouched_le)

variable {old new : List (List Char)} {hs : List Hunk} {diff : List LineChange}

/-- Texts begin with the same lines up to a place before all changes. -/
theorem take_eq (script : EditScript old new hs diff) {E : Nat} (bound : E ≤ old.length)
    (below : ∀ c ∈ diff, (E : Int) < c.line) : old.take E = new.take E := by
  have both := script.untouched
  rw [untouched_take fun c hc _ => below c hc, untouched_take fun c hc _ => below c hc] at both
  have size : (old.take E).length = E := List.length_take_of_le bound
  by_cases inside : E ≤ new.length
  · exact (List.append_inj both (size.trans (List.length_take_of_le inside).symm)).1
  · -- the new text would end before the place, and hold all the lines up to it
    have short : new.length ≤ E := Nat.le_of_not_le inside
    have none : LineChange.untouched .insert diff new.length [] = [] := rfl
    rw [List.take_of_length_le short, List.drop_of_length_le short, none, List.append_nil] at both
    have length := congrArg List.length both
    rw [List.length_append, size] at length
    omega

/-- Texts end with the same lines from a place behind all changes on. -/
theorem drop_eq (script : EditScript old new hs diff) {B : Nat} (bound : B ≤ old.length)
    (deletes : ∀ c ∈ diff, c.isDelete = true → c.line ≤ B)
    (inserts : ∀ c ∈ diff, c.isInsert = true → c.line ≤ B + Change.balance diff) :
    ∃ B' : Nat, (B' : Int) = B + Change.balance diff ∧ old.drop B = new.drop B' := by
  have balance := script.balance
  have both := script.untouched
  rw [untouched_drop bound fun c hc kind =>
    deletes c hc (by simp [LineChange.isDelete, kind])] at both
  have fits : old.length - B ≤ new.length := by
    have few : (LineChange.untouched .insert diff 0 new).length ≤ new.length :=
      length_untouched_le 0 new
    rw [← both, List.length_append, List.length_drop] at few
    omega
  obtain ⟨B', place⟩ := Int.eq_ofNat_of_zero_le (show 0 ≤ B + Change.balance diff by omega)
  have inside : B' ≤ new.length := by omega
  rw [untouched_drop inside fun c hc kind =>
    place ▸ inserts c hc (by simp [LineChange.isInsert, kind])] at both
  refine ⟨B', place.symm, (List.append_inj' both ?_).2⟩
  rw [List.length_drop, List.length_drop]
  omega

/-- A line beside all edits is found again, moved as they have it. -/
theorem same_line (script : EditScript old new hs diff) {L : Nat} {shift : Int} (pos : 0 < L)
    (bound : L ≤ old.length) (beside : LineChange.Beside diff L L shift) :
    ∃ M : Nat, (M : Int) = L + shift ∧ 1 ≤ M ∧ old[L - 1]? = new[M - 1]? := by
  cases beside with
  | below beyond =>
    refine ⟨L, by omega, pos, ?_⟩
    have lt : L - 1 < L := by omega
    rw [← List.getElem?_take_of_lt lt, script.take_eq bound beyond, List.getElem?_take_of_lt lt]
  | above deletes inserts =>
    obtain ⟨B, place, same⟩ := script.drop_eq (B := L - 1) (by omega)
      (fun c hc kind => by have := deletes c hc kind; omega)
      fun c hc kind => by have := inserts c hc kind; omega
    refine ⟨B + 1, by omega, Nat.le_add_left 1 B, ?_⟩
    calc old[L - 1]? = (old.drop (L - 1))[0]? := by rw [List.getElem?_drop, Nat.add_zero]
      _ = (new.drop B)[0]? := by rw [same]
      _ = new[B + 1 - 1]? := by rw [List.getElem?_drop, Nat.add_zero, Nat.add_sub_cancel]

end EditScript

/-- The layout of a computed diff moves a line beside all edits as they have it. -/
theorem Layout.mapLine_beside {old new : List (List Char)} {line shift : Int}
    (beside : LineChange.Beside (lineDiff old new) line line shift) :
    (ofDiff (lineDiff old new)).deletes line = false ∧
      (ofDiff (lineDiff old new)).mapLine line = line + shift := by
  have deletion : ∀ c ∈ (ofDiff (lineDiff old new)).deletions,
      c ∈ lineDiff old new ∧ c.isDelete = true :=
    fun c hc => List.mem_filter.mp (mem_deletions_ofDiff hc)
  have insertion : ∀ c ∈ (ofDiff (lineDiff old new)).insertions,
      c ∈ lineDiff old new ∧ c.isInsert = true :=
    fun c hc => List.mem_filter.mp (mem_insertions_ofDiff hc)
  cases beside with
  | below beyond =>
    rw [Int.add_zero]
    exact (sorted_ofDiff _).mapLine_above (fun c hc => beyond c (deletion c hc).1)
      fun c hc => beyond c (insertion c hc).1
  | above deletes inserts =>
    have ordered : (ofDiff (lineDiff old new)).Ordered := by
      rw [ofDiff_lineDiff]
      exact ordered_ofHunks (Hunk.tiles_between old new)
    exact ordered.mapLine_below (balance_ofDiff _)
      (fun c hc => deletes c (deletion c hc).1 (deletion c hc).2)
      fun c hc => inserts c (insertion c hc).1 (insertion c hc).2

end Lineage
