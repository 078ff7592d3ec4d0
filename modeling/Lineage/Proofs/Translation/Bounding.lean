/-
# Lines that a diff leads to are there

The diff of two texts deletes different lines of the old one, and grows it to the length of
the new one. So whatever is brought above or below a line, a line that the layout does not
drop is moved to a line of the new text (`EditScript.mapLine_inside`). Looking for that line
never fails: a position becomes nothing only in a line that is dropped, or if its line has
become empty, and otherwise it is found on the line that its line is moved to
(`Position.apply_inside`).

Key theorems: `EditScript.mapLine_inside`, `Position.apply_inside`.
-/
import Lineage.Proofs.Diff.Sides
import Lineage.Proofs.Translation.Applying

namespace Lineage

open Text (plainLines)

/-- The layout of a diff that edits one text into another one moves every line that it does
not drop to a line of the other text. -/
theorem EditScript.mapLine_inside {old new : List (List Char)} {hs : List Hunk}
    {diff : List LineChange} (script : EditScript old new hs diff) {L : Nat} (pos : 0 < L)
    (bound : L ≤ old.length) (kept : (Layout.ofDiff diff).deletes L = false) :
    1 ≤ (Layout.ofDiff diff).mapLine L ∧ (Layout.ofDiff diff).mapLine L ≤ new.length := by
  have once : ((diff.filter LineChange.isDelete).map LineChange.line).Nodup :=
    List.pairwise_map.mpr (script.deletions.imp Int.ne_of_lt)
  have inside : ∀ c ∈ (Layout.ofDiff diff).deletions, c.line ≤ old.length := by
    intro c hc
    obtain ⟨mem, delete⟩ := List.mem_filter.mp (Layout.mem_deletions_ofDiff hc)
    obtain ⟨k, lt, line, -⟩ := script.deleted c mem delete
    omega
  have onLine : (1 : Int) ≤ L := by omega
  obtain ⟨least, most⟩ := (Layout.sorted_ofDiff diff).mapLine_inside
    (Layout.nodup_deletions_ofDiff once) inside onLine (by omega) kept
  rw [Layout.balance_ofDiff, script.balance] at most
  exact ⟨least, by omega⟩

namespace Position

variable {p : Position} {c : Change} {old new : File} {a : Archive} {before after : List Char}

/-- A position lands somewhere or on an empty line, if there is a line where it is looked for. -/
theorem Lands.eq_none_iff {N : Nat} {r : Option Position} (lands : p.Lands new before after N r)
    (inside : N - 1 < (plainLines after).length) :
    r = none ↔ (plainLines after)[N - 1]? = some [] := by
  cases r with
  | none =>
    refine iff_of_true rfl (lands.resolve_left fun beyond => ?_)
    exact Nat.not_le_of_lt inside (List.getElem?_eq_none_iff.mp beyond)
  | some q =>
    obtain ⟨-, stands, line, -⟩ := lands
    obtain ⟨text, found, filled⟩ := stands.exists_plain
    have index : (q.line - 1).toNat = N - 1 := by omega
    rw [index] at found
    refine iff_of_false (Option.some_ne_none q) fun empty => filled ?_
    exact Option.some.inj (found.symm.trans empty)

/-- A change that compares two files takes every position of the old one somewhere or nowhere,
and does not fail. The line that the layout of its diff moves the position's line to is one of
the new file unless the layout drops the position's line. So the position becomes nothing only
in a line that is dropped, or if that line of the new file is empty, and otherwise it becomes a
position on it. -/
theorem apply_inside (hc : c.Compares old new) (apart : old.OneHandle new)
    (sourced : c.Sourced a) (hb : old.text.answer a = .ok before)
    (ha : new.text.answer a = .ok after) (stands : p.StandsIn old before) :
    ∃ diff r, c.diff.answer a = .ok diff ∧ (p.apply c).answer a = .ok r ∧
      let layout := Layout.ofDiff diff
      let line := layout.mapLine p.line
      ((∀ d ∈ layout.deletions, d.line ≠ p.line) → 1 ≤ line ∧ line ≤ (plainLines after).length) ∧
      (r = none ↔ (∃ d ∈ layout.deletions, d.line = p.line) ∨
        (plainLines after)[(line - 1).toNat]? = some []) ∧
      ∀ q, r = some q → q.file = new ∧ q.line = line ∧ q.StandsIn new after := by
  let diff := lineDiff (plainLines before) (plainLines after)
  have script : EditScript _ _ _ diff := .lineDiff (plainLines before) (plainLines after)
  obtain ⟨computed, oldText, newText⟩ := hc.diff apart sourced hb ha
  obtain ⟨L, hL, pos, bound⟩ := stands.exists_number
  have drops_iff : (∃ d ∈ (Layout.ofDiff diff).deletions, d.line = p.line) ↔
      (Layout.ofDiff diff).deletes p.line = true := by
    simp [Layout.deletes]
  by_cases gone : (Layout.ofDiff diff).deletes p.line = true
  · have settled : (p.applyLayout old new (.ofDiff diff)).Settled (c.diff.after a) none := by
      unfold applyLayout
      rw [if_pos gone]
      exact .pure none _
    rw [Layout.ofDiff_lineDiff] at settled
    obtain ⟨d, hd, line⟩ := drops_iff.mpr gone
    exact ⟨diff, none, computed, answer_apply hc stands.version computed settled,
      fun none => absurd line (none d hd), iff_of_true rfl (.inl ⟨d, hd, line⟩),
      fun q hq => by cases hq⟩
  · have kept : (Layout.ofDiff diff).deletes p.line = false := Bool.eq_false_iff.mpr gone
    have inside := script.mapLine_inside pos bound (hL ▸ kept)
    obtain ⟨N, moved⟩ := Int.eq_ofNat_of_zero_le (show 0 ≤ (Layout.ofDiff diff).mapLine L by omega)
    rw [moved] at inside
    have index : ((N : Int) - 1).toNat = N - 1 := by omega
    rw [← hL] at moved
    obtain ⟨r, settled, lands⟩ := applyLayout_lands oldText newText stands kept moved (by omega)
    have nothing := lands.eq_none_iff (by omega)
    rw [Layout.ofDiff_lineDiff] at settled
    refine ⟨diff, r, computed, answer_apply hc stands.version computed settled, ?_, ?_, ?_⟩
    · intro _
      rw [moved]
      exact inside
    · rw [drops_iff, moved, index, nothing]
      exact (or_iff_right gone).symm
    · rintro q rfl
      exact ⟨lands.1, lands.2.2.1.trans moved.symm, lands.2.1⟩

/-- Three lines are dropped and one is brought: the last old line is moved to the last new one,
though it is the first line there that is kept. -/
theorem apply_inside_last :
    let before := ['d', '\n', 'd', '\n', 'd', '\n', 'k', '\n']
    let after := ['k', '\n', 'x', '\n']
    let old : File := ⟨⟨"a", "r1"⟩, .memory before⟩
    let new : File := ⟨⟨"a", "r2"⟩, .memory after⟩
    let c : Change := ⟨0, some old, some new, .compared⟩
    let p : Position :=
      ⟨⟨4, 1, 6, 0, by decide, by decide, by decide, by decide⟩, old, 4, by decide⟩
    c.Compares old new ∧ p.StandsIn old before ∧
      ∃ q, (p.apply c).answer Archive.empty = .ok (some q) ∧
        q.line = (plainLines after).length := by
  intro before after old new c p
  have compares : c.Compares old new := ⟨rfl, rfl, rfl⟩
  have found : (old.positionAt 4 1 4).answer Archive.empty = .ok (some p) := rfl
  have stands : p.StandsIn old before := standsIn_of_positionAt (fun _ _ => rfl) found
  have sourced : c.Sourced .empty := Change.sourced_of_unkept rfl
  refine ⟨compares, stands, ?_⟩
  obtain ⟨diff, r, computed, applied, -, nothing, place⟩ :=
    apply_inside (a := Archive.empty) compares (fun _ some => absurd rfl some) sourced rfl rfl
      stands
  obtain ⟨known, -⟩ := compares.diff (a := Archive.empty) (fun _ some => absurd rfl some) sourced
    rfl rfl
  have same := Except.ok.inj (computed.symm.trans known)
  have layout := Layout.ofDiff_lineDiff (plainLines before) (plainLines after)
  have ordered := Layout.ordered_ofHunks (Hunk.tiles_between (plainLines before) (plainLines after))
  have moved := ordered.mapLine_eq p.line
  rw [same, layout, moved] at nothing place
  cases r with
  | none => exact absurd (nothing.mp rfl) (by decide)
  | some q => exact ⟨q, applied, (place q rfl).2.1.trans (by decide)⟩

end Position
end Lineage
