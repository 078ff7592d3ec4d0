/-
# Replaying a diff

The diff of two texts is a script that edits the old lines into the new ones. It names
lines of the old text to delete and lines of the new text to insert, hunk by hunk; the
lines that it does not name are the same on both sides, and replaying it on the old
lines yields the new ones (`EditScript.lineDiff`).

Key definitions: `LineChange.untouched`, `LineChange.replay`, `EditScript`.
Key theorems: `Hunk.Tiles.replay_eq`, `Hunk.Tiles.untouched_eq`, `EditScript.lineDiff`.
-/
import Lineage.Change.Basic
import Lineage.Proofs.Layout.Pairing

namespace Lineage

namespace LineChange

/-- Whether a diff has a change of a kind for a line. -/
def names (kind : Kind) (diff : List LineChange) (line : Nat) : Bool :=
  diff.any fun c => c.kind == kind && c.line == line

/-- The lines for which a diff has no change of a kind, of lines that follow the first
`k` ones. -/
def untouched (kind : Kind) (diff : List LineChange) : Nat → List (List Char) → List (List Char)
  | _, [] => []
  | k, line :: lines =>
    if names kind diff (k + 1) then untouched kind diff (k + 1) lines
    else line :: untouched kind diff (k + 1) lines

/-- What a diff makes of the old lines that follow the first `i` ones, where `j` new lines
have been made so far: a line is inserted where the next change says so, one is left out
where the next change deletes it, and all others are copied. A diff fails that goes beyond
the end, or that deletes a line with another content. -/
def replay (i j : Nat) (lines : List (List Char)) (diff : List LineChange) :
    Option (List (List Char)) :=
  match diff with
  | [] => some lines
  | c :: cs =>
    if c.isInsert ∧ c.line = j + 1 then (replay i (j + 1) lines cs).map (c.content :: ·)
    else
      match lines with
      | [] => none
      | line :: rest =>
        if c.isDelete ∧ c.line = i + 1 then
          if line = c.content then replay (i + 1) j rest cs else none
        else (replay (i + 1) (j + 1) rest (c :: cs)).map (line :: ·)
termination_by lines.length + diff.length

section Untouched

variable {kind : Kind} {diff : List LineChange}

theorem untouched_append : ∀ (k : Nat) (ls ls' : List (List Char)),
    untouched kind diff k (ls ++ ls') =
      untouched kind diff k ls ++ untouched kind diff (k + ls.length) ls'
  | _, [], _ => rfl
  | k, l :: ls, ls' => by
    have place : k + (l :: ls).length = k + 1 + ls.length := by
      rw [List.length_cons]
      omega
    rw [List.cons_append, untouched, untouched, untouched_append (k + 1) ls ls', place]
    by_cases named : names kind diff (k + 1) = true
    · rw [if_pos named, if_pos named]
    · rw [if_neg named, if_neg named, List.cons_append]

/-- Of lines that the diff all names none is left, and of lines of which it names none all
are. -/
theorem untouched_of_names (named : Bool) : ∀ {k : Nat} {ls : List (List Char)},
    (∀ n, k < n → n ≤ k + ls.length → names kind diff n = named) →
      untouched kind diff k ls = bif named then [] else ls
  | _, [], _ => by cases named <;> rfl
  | k, l :: ls, h => by
    have here : names kind diff (k + 1) = named := h (k + 1) (by omega) (by simp)
    have rest : ∀ n, k + 1 < n → n ≤ k + 1 + ls.length → names kind diff n = named := by
      intro n lt le
      exact h n (by omega) (by rw [List.length_cons]; omega)
    rw [untouched, here, untouched_of_names named rest]
    cases named <;> rfl

end Untouched

section Replay

open Hunk (numbered)

variable {i j : Nat} {c : LineChange} {cs : List LineChange} {lines : List (List Char)}

theorem replay_nil (i j : Nat) (lines : List (List Char)) : replay i j lines [] = some lines := by
  rw [replay]

theorem replay_cons_insert (insert : c.isInsert = true) (due : c.line = j + 1) :
    replay i j lines (c :: cs) = (replay i (j + 1) lines cs).map (c.content :: ·) := by
  rw [replay.eq_def]
  dsimp only
  rw [if_pos ⟨insert, due⟩]

theorem replay_cons_delete {line : List Char} (delete : c.isDelete = true)
    (due : c.line = i + 1) (same : line = c.content) :
    replay i j (line :: lines) (c :: cs) = replay (i + 1) j lines cs := by
  have noInsert : ¬ (c.isInsert = true ∧ c.line = j + 1) := by
    rintro ⟨insert, -⟩
    simp_all [isInsert, isDelete]
  rw [replay.eq_def]
  dsimp only
  rw [if_neg noInsert, if_pos ⟨delete, due⟩, if_pos same]

theorem replay_cons_copy {line : List Char} (delete : c.isDelete = true → (i : Int) + 1 < c.line)
    (insert : c.isInsert = true → (j : Int) + 1 < c.line) :
    replay i j (line :: lines) (c :: cs) =
      (replay (i + 1) (j + 1) lines (c :: cs)).map (line :: ·) := by
  have noInsert : ¬ (c.isInsert = true ∧ c.line = j + 1) := by
    rintro ⟨h, here⟩
    have := insert h
    omega
  have noDelete : ¬ (c.isDelete = true ∧ c.line = i + 1) := by
    rintro ⟨h, here⟩
    have := delete h
    omega
  rw [replay.eq_def]
  dsimp only
  rw [if_neg noInsert, if_neg noDelete]

theorem replay_copy : ∀ (i j : Nat) (ls : List (List Char)) {cs : List LineChange},
    (∀ c ∈ cs, (c.isDelete = true → ((i + ls.length : Nat) : Int) < c.line) ∧
      (c.isInsert = true → ((j + ls.length : Nat) : Int) < c.line)) →
      replay i j (ls ++ lines) cs =
        (replay (i + ls.length) (j + ls.length) lines cs).map (ls ++ ·)
  | _, _, [], _, _ => by simp
  | _, _, l :: ls, [], _ => by simp [replay_nil]
  | i, j, l :: ls, c :: cs, h => by
    have oldPlace : i + (l :: ls).length = i + 1 + ls.length := by
      rw [List.length_cons]
      omega
    have newPlace : j + (l :: ls).length = j + 1 + ls.length := by
      rw [List.length_cons]
      omega
    rw [oldPlace, newPlace] at h ⊢
    have due := h c List.mem_cons_self
    have delete : c.isDelete = true → (i : Int) + 1 < c.line := by
      intro hc
      have := due.1 hc
      omega
    have insert : c.isInsert = true → (j : Int) + 1 < c.line := by
      intro hc
      have := due.2 hc
      omega
    rw [List.cons_append, replay_cons_copy delete insert, replay_copy (i + 1) (j + 1) ls h,
      Option.map_map]
    rfl

theorem replay_delete : ∀ (i j : Nat) (ls : List (List Char)),
    replay i j (ls ++ lines) (numbered .delete i ls ++ cs) = replay (i + ls.length) j lines cs
  | _, _, [] => rfl
  | i, j, l :: ls => by
    have place : i + 1 + ls.length = i + (l :: ls).length := by
      rw [List.length_cons]
      omega
    rw [numbered, List.cons_append, List.cons_append, replay_cons_delete rfl rfl (Eq.refl l),
      replay_delete (i + 1) j ls, place]

theorem replay_insert : ∀ (i j : Nat) (ls : List (List Char)),
    replay i j lines (numbered .insert j ls ++ cs) =
      (replay i (j + ls.length) lines cs).map (ls ++ ·)
  | _, _, [] => by simp [numbered]
  | i, j, l :: ls => by
    have place : j + 1 + ls.length = j + (l :: ls).length := by
      rw [List.length_cons]
      omega
    rw [numbered, List.cons_append, replay_cons_insert rfl rfl, replay_insert i (j + 1) ls,
      Option.map_map, place]
    rfl

end Replay

end LineChange

/-! ### The changes of hunks -/

namespace Hunk

open LineChange

variable {old new : List (List Char)} {i j : Nat} {hs : List Hunk}

theorem content_of_mem_numbered {kind : LineChange.Kind} {c : LineChange} :
    ∀ {k : Nat} {ls : List (List Char)}, c ∈ numbered kind k ls →
      ∃ n, c.line = (k + n : Nat) + 1 ∧ ls[n]? = some c.content
  | _, [], h => by cases h
  | k, l :: ls, h => by
    rcases List.mem_cons.mp h with rfl | h
    · exact ⟨0, rfl, rfl⟩
    · obtain ⟨n, line, content⟩ := content_of_mem_numbered h
      exact ⟨n + 1, by omega, content⟩

theorem content_of_mem_part {kind : LineChange.Kind} {lines : List (List Char)} {s : Nat × Nat}
    {c : LineChange} (h : c ∈ part kind lines s) :
    ∃ (k : Nat) (inside : k < lines.length), c.line = k + 1 ∧ c.content = lines[k] := by
  obtain ⟨n, line, content⟩ := content_of_mem_numbered h
  rw [List.getElem?_drop, List.getElem?_take] at content
  split at content
  · obtain ⟨inside, same⟩ := List.getElem?_eq_some_iff.mp content
    exact ⟨s.1 + n, inside, line, same.symm⟩
  · cases content

theorem changes_eq (old new : List (List Char)) (h : Hunk) :
    h.changes old new = part .delete old h.old ++ part .insert new h.new := rfl

/-- Stretches name the lines in them. -/
theorem any_line_parts (kind : LineChange.Kind) {lines : List (List Char)}
    (f : Hunk → Nat × Nat) (ends : ∀ h ∈ hs, (f h).2 ≤ lines.length) (n : Nat) :
    ((hs.flatMap fun h => part kind lines (f h)).any fun c => c.line == n) = true ↔
      ∃ h ∈ hs, (f h).1 < n ∧ n ≤ (f h).2 := by
  have each : ∀ h ∈ hs, (((part kind lines (f h)).any fun c => c.line == n) = true ↔
      (f h).1 < n ∧ n ≤ (f h).2) := by
    intro h hh
    have lines_eq := line_numbered kind (f h).1 ((lines.take (f h).2).drop (f h).1)
    rw [length_stretch (ends h hh)] at lines_eq
    have named : ((part kind lines (f h)).any fun c => c.line == n) = true ↔
        (n : Int) ∈ (part kind lines (f h)).map LineChange.line := by
      simp [List.any_eq_true]
    rw [named, part, lines_eq, List.mem_map]
    constructor
    · rintro ⟨m, hm, e⟩
      have := List.mem_range'_1.mp hm
      omega
    · rintro ⟨lt, le⟩
      exact ⟨n, List.mem_range'_1.mpr (by omega), rfl⟩
  simp only [List.any_flatMap, List.any_eq_true (l := hs)]
  exact exists_congr fun h => and_congr_right (each h)

theorem names_delete (tiles : Tiles old new i j hs) (n : Nat) :
    names .delete (hs.flatMap (changes old new)) n = true ↔
      ∃ h ∈ hs, h.oldStart < n ∧ n ≤ h.oldStop := by
  have parts := any_line_parts .delete Hunk.old
    (fun h hh => (tiles.valid h hh).1.2) n
  rw [← Layout.filter_isDelete hs, List.any_filter] at parts
  exact parts

theorem names_insert (tiles : Tiles old new i j hs) (n : Nat) :
    names .insert (hs.flatMap (changes old new)) n = true ↔
      ∃ h ∈ hs, h.newStart < n ∧ n ≤ h.newStop := by
  have parts := any_line_parts .insert Hunk.new
    (fun h hh => (tiles.valid h hh).2.2) n
  rw [← Layout.filter_isInsert hs, List.any_filter] at parts
  exact parts

/-- All changes are behind the place that the hunks are counted from. -/
theorem behind_changes (start : ∀ h ∈ hs, i ≤ h.oldStart ∧ j ≤ h.newStart) :
    ∀ c ∈ hs.flatMap (changes old new),
      (c.isDelete = true → (i : Int) < c.line) ∧ (c.isInsert = true → (j : Int) < c.line) := by
  intro c hc
  obtain ⟨h, hh, hc⟩ := List.mem_flatMap.mp hc
  have beyond := start h hh
  rw [changes_eq, List.mem_append] at hc
  rcases hc with hc | hc
  · have inside := line_of_mem_part hc
    have only := (Layout.flags_of_mem hc).2
    exact ⟨fun _ => by simp only [Hunk.old] at inside; omega, fun h => by simp [only] at h⟩
  · have inside := line_of_mem_part hc
    have only := (Layout.flags_of_mem hc).1
    exact ⟨fun h => by simp [only] at h, fun _ => by simp only [Hunk.new] at inside; omega⟩

/-! ### Following the hunks -/

theorem drop_eq_append (lines : List (List Char)) {k : Nat} (h : i ≤ k) :
    lines.drop i = (lines.take k).drop i ++ lines.drop k := by
  calc lines.drop i
      = (lines.drop i).take (k - i) ++ (lines.drop i).drop (k - i) :=
        (List.take_append_drop _ _).symm
    _ = (lines.take k).drop i ++ lines.drop k := by
        rw [List.drop_take, List.drop_drop, Nat.add_sub_cancel' h]

theorem add_length_stretch {lines : List (List Char)} {k : Nat} (h : i ≤ k)
    (end_le : k ≤ lines.length) : i + ((lines.take k).drop i).length = k := by
  rw [List.length_drop, List.length_take, Nat.min_eq_left end_le, Nat.add_sub_cancel' h]

theorem drop_eq_drop (alike : ∀ k, old[i + k]? = new[j + k]?) : old.drop i = new.drop j := by
  apply List.ext_getElem?
  intro k
  rw [List.getElem?_drop, List.getElem?_drop, alike k]

section Follows

variable {h : Hunk} {cs : List LineChange}

/-- Up to the next hunk both sides have the same lines. -/
theorem Follows.stretch_eq (next : h.Follows old new i j) :
    (old.take h.oldStart).drop i = (new.take h.newStart).drop j := by
  have level := next.level
  have oldFrom := next.oldFrom
  apply List.ext_getElem?
  intro k
  rw [List.getElem?_drop, List.getElem?_drop, List.getElem?_take, List.getElem?_take]
  by_cases inside : i + k < h.oldStart
  · rw [if_pos inside, if_pos (by omega), next.alike k inside]
  · rw [if_neg inside, if_neg (by omega)]

/-- The next hunk is reached on both sides at once. -/
theorem Follows.places (next : h.Follows old new i j) :
    j ≤ h.newStart ∧ i + ((old.take h.oldStart).drop i).length = h.oldStart ∧
      j + ((old.take h.oldStart).drop i).length = h.newStart := by
  have level := next.level
  have oldFrom := next.oldFrom
  have oldPlace := add_length_stretch oldFrom (Nat.le_trans next.oldStop next.oldEnd)
  omega

/-- Up to the next hunk the lines are copied. -/
theorem Follows.replay_eq (next : h.Follows old new i j)
    (behind : ∀ c ∈ cs, (c.isDelete = true → (h.oldStart : Int) < c.line) ∧
      (c.isInsert = true → (h.newStart : Int) < c.line)) :
    replay i j (old.drop i) cs =
      (replay h.oldStart h.newStart (old.drop h.oldStart) cs).map
        ((new.take h.newStart).drop j ++ ·) := by
  obtain ⟨-, oldPlace, newPlace⟩ := next.places
  rw [← oldPlace, ← newPlace] at behind
  have copied : replay i j ((old.take h.oldStart).drop i ++ old.drop h.oldStart) cs = _ :=
    replay_copy i j _ behind
  rwa [oldPlace, newPlace, ← drop_eq_append old next.oldFrom, next.stretch_eq] at copied

theorem Follows.replay_changes (next : h.Follows old new i j) (cs : List LineChange) :
    replay h.oldStart h.newStart (old.drop h.oldStart) (h.changes old new ++ cs) =
      (replay h.oldStop h.newStop (old.drop h.oldStop) cs).map
        ((new.take h.newStop).drop h.newStart ++ ·) := by
  rw [drop_eq_append old next.oldStop, changes, List.append_assoc, replay_delete, replay_insert,
    add_length_stretch next.oldStop next.oldEnd, add_length_stretch next.newStop next.newEnd]

end Follows

/-- Replayed on the old lines, the changes of the hunks make the new ones. -/
theorem Tiles.replay_eq (tiles : Tiles old new i j hs) :
    replay i j (old.drop i) (hs.flatMap (changes old new)) = some (new.drop j) := by
  induction tiles with
  | nil oldEnd newEnd level alike =>
    rw [List.flatMap_nil, replay_nil, drop_eq_drop alike]
  | @cons i j h hs next apart rest ih =>
    have oldStop := next.oldStop
    have newStop := next.newStop
    have start : ∀ h' ∈ h :: hs, h.oldStart ≤ h'.oldStart ∧ h.newStart ≤ h'.newStart := by
      intro h' hh'
      rcases List.mem_cons.mp hh' with rfl | hh'
      · exact ⟨Nat.le_refl _, Nat.le_refl _⟩
      · have := rest.start_le h' hh'
        omega
    calc replay i j (old.drop i) ((h :: hs).flatMap (changes old new))
        = (replay h.oldStart h.newStart (old.drop h.oldStart)
            ((h :: hs).flatMap (changes old new))).map ((new.take h.newStart).drop j ++ ·) :=
          next.replay_eq (behind_changes start)
      _ = some ((new.take h.newStart).drop j ++
            ((new.take h.newStop).drop h.newStart ++ new.drop h.newStop)) := by
          rw [List.flatMap_cons, next.replay_changes, ih, Option.map_some, Option.map_some]
      _ = some (new.drop j) := by
          rw [← drop_eq_append new newStop, ← drop_eq_append new next.places.1]

/-- On each side the lines before the first hunk are left and those in it are not, and from
its end on the diff names the lines of the other hunks. -/
theorem untouched_cons {kind : LineChange.Kind} {diff : List LineChange}
    {lines : List (List Char)} {h : Hunk} (f : Hunk → Nat × Nat)
    (named : ∀ n, i < n →
      (names kind diff n = true ↔ ∃ h' ∈ h :: hs, (f h').1 < n ∧ n ≤ (f h').2))
    (start_le : i ≤ (f h).1) (le : (f h).1 ≤ (f h).2) (end_le : (f h).2 ≤ lines.length)
    (later : ∀ h' ∈ hs, (f h).2 ≤ (f h').1) :
    untouched kind diff i (lines.drop i) =
        (lines.take (f h).1).drop i ++ untouched kind diff (f h).2 (lines.drop (f h).2) ∧
      ∀ n, (f h).2 < n → (names kind diff n = true ↔ ∃ h' ∈ hs, (f h').1 < n ∧ n ≤ (f h').2) := by
  have before_place := add_length_stretch start_le (Nat.le_trans le end_le)
  have inside_place := add_length_stretch le end_le
  have before : untouched kind diff i ((lines.take (f h).1).drop i) =
      (lines.take (f h).1).drop i := by
    refine untouched_of_names false fun n lt le' => Bool.eq_false_iff.mpr fun hn => ?_
    obtain ⟨h', hh', lt', -⟩ := (named n lt).mp hn
    rcases List.mem_cons.mp hh' with rfl | hh'
    · omega
    · have := later h' hh'
      omega
  have inside : untouched kind diff (f h).1 ((lines.take (f h).2).drop (f h).1) = [] := by
    refine untouched_of_names true fun n lt le' => ?_
    exact (named n (by omega)).mpr ⟨h, List.mem_cons_self, lt, by omega⟩
  constructor
  · rw [drop_eq_append lines start_le, drop_eq_append lines le, untouched_append,
      untouched_append, before, before_place, inside, inside_place, List.nil_append]
  · intro n lt
    rw [named n (by omega)]
    constructor
    · rintro ⟨h', hh', inside⟩
      rcases List.mem_cons.mp hh' with rfl | hh'
      · omega
      · exact ⟨h', hh', inside⟩
    · rintro ⟨h', hh', inside⟩
      exact ⟨h', List.mem_cons_of_mem _ hh', inside⟩

/-- The old lines that are not deleted are the new lines that are not inserted. -/
theorem Tiles.untouched_eq {diff : List LineChange} (tiles : Tiles old new i j hs)
    (deletes : ∀ n, i < n → (names .delete diff n = true ↔
      ∃ h ∈ hs, h.oldStart < n ∧ n ≤ h.oldStop))
    (inserts : ∀ n, j < n → (names .insert diff n = true ↔
      ∃ h ∈ hs, h.newStart < n ∧ n ≤ h.newStop)) :
    untouched .delete diff i (old.drop i) = untouched .insert diff j (new.drop j) := by
  induction tiles with
  | @nil i j oldEnd newEnd level alike =>
    have noDelete : untouched .delete diff i (old.drop i) = old.drop i := by
      refine untouched_of_names false fun n lt _ => Bool.eq_false_iff.mpr fun hn => ?_
      obtain ⟨h, hh, -⟩ := (deletes n lt).mp hn
      cases hh
    have noInsert : untouched .insert diff j (new.drop j) = new.drop j := by
      refine untouched_of_names false fun n lt _ => Bool.eq_false_iff.mpr fun hn => ?_
      obtain ⟨h, hh, -⟩ := (inserts n lt).mp hn
      cases hh
    rw [noDelete, noInsert, drop_eq_drop alike]
  | @cons i j h hs next apart rest ih =>
    obtain ⟨newFrom, -, -⟩ := next.places
    obtain ⟨oldSide, deletes⟩ := untouched_cons Hunk.old deletes next.oldFrom next.oldStop
      next.oldEnd fun h' hh' => (rest.start_le h' hh').1
    obtain ⟨newSide, inserts⟩ := untouched_cons Hunk.new inserts newFrom next.newStop
      next.newEnd fun h' hh' => (rest.start_le h' hh').2
    rw [oldSide, newSide]
    show (old.take h.oldStart).drop i ++ untouched .delete diff h.oldStop (old.drop h.oldStop) =
      (new.take h.newStart).drop j ++ untouched .insert diff h.newStop (new.drop h.newStop)
    rw [next.stretch_eq, ih deletes inserts]

/-! ### Counting -/

theorem balance_append (diff diff' : List LineChange) :
    Change.balance (diff ++ diff') = Change.balance diff + Change.balance diff' := by
  unfold Change.balance
  rw [List.countP_append, List.countP_append]
  omega

theorem length_numbered (kind : LineChange.Kind) (k : Nat) (ls : List (List Char)) :
    (numbered kind k ls).length = ls.length := by
  have lengths := congrArg List.length (line_numbered kind k ls)
  rwa [List.length_map, List.length_map, List.length_range'] at lengths

theorem balance_changes {h : Hunk} (oldEnd : h.oldStop ≤ old.length)
    (newEnd : h.newStop ≤ new.length) :
    Change.balance (h.changes old new) =
      ((h.newStop - h.newStart : Nat) : Int) - (h.oldStop - h.oldStart : Nat) := by
  have noInsert : (part .delete old h.old).countP LineChange.isInsert = 0 :=
    List.countP_eq_zero.mpr fun c hc => by simp [(Layout.flags_of_mem hc).2]
  have noDelete : (part .insert new h.new).countP LineChange.isDelete = 0 :=
    List.countP_eq_zero.mpr fun c hc => by simp [(Layout.flags_of_mem hc).1]
  have deletes : (part .delete old h.old).countP LineChange.isDelete = h.oldStop - h.oldStart := by
    rw [part, List.countP_eq_length.mpr fun c hc => (Layout.flags_of_mem hc).1,
      length_numbered, length_stretch (s := h.old) oldEnd]
    rfl
  have inserts : (part .insert new h.new).countP LineChange.isInsert = h.newStop - h.newStart := by
    rw [part, List.countP_eq_length.mpr fun c hc => (Layout.flags_of_mem hc).2,
      length_numbered, length_stretch (s := h.new) newEnd]
    rfl
  rw [changes_eq, balance_append]
  unfold Change.balance
  omega

/-- Hunks make up for the difference of the lengths. -/
theorem Tiles.balance_eq (tiles : Tiles old new i j hs) :
    Change.balance (hs.flatMap (changes old new)) =
      ((new.length : Int) - j) - (old.length - i) := by
  induction tiles with
  | nil oldEnd newEnd level alike =>
    show (0 : Int) = _
    omega
  | @cons i j h hs next apart rest ih =>
    have oldStop := next.oldStop
    have newStop := next.newStop
    have level := next.level
    rw [List.flatMap_cons, balance_append, balance_changes next.oldEnd next.newEnd, ih]
    omega

end Hunk

/-! ### The script -/

/-- A diff that edits old lines into new ones by way of hunks. -/
structure EditScript (old new : List (List Char)) (hs : List Hunk) (diff : List LineChange) :
    Prop where
  /-- Deletions are in the order of the old lines. -/
  deletions : (diff.filter LineChange.isDelete).Pairwise fun c d => c.line < d.line
  /-- Insertions are in the order of the new lines. -/
  insertions : (diff.filter LineChange.isInsert).Pairwise fun c d => c.line < d.line
  deleted : ∀ c ∈ diff, c.isDelete = true →
    ∃ (k : Nat) (inside : k < old.length), c.line = k + 1 ∧ c.content = old[k]
  inserted : ∀ c ∈ diff, c.isInsert = true →
    ∃ (k : Nat) (inside : k < new.length), c.line = k + 1 ∧ c.content = new[k]
  /-- The hunks come in the order of both texts. -/
  order : hs.Pairwise fun h h' => h.oldStop < h'.oldStart ∧ h.newStop < h'.newStart
  /-- The diff goes hunk by hunk, and each hunk has its deletions first. -/
  hunks : ∃ deletions insertions : Hunk → List LineChange,
    diff = hs.flatMap (fun h => deletions h ++ insertions h) ∧
    (∀ h, ∀ c ∈ deletions h, c.isDelete = true ∧ h.oldStart < c.line ∧ c.line ≤ h.oldStop) ∧
    ∀ h, ∀ c ∈ insertions h, c.isInsert = true ∧ h.newStart < c.line ∧ c.line ≤ h.newStop
  untouched : LineChange.untouched .delete diff 0 old = LineChange.untouched .insert diff 0 new
  replay : LineChange.replay 0 0 old diff = some new
  balance : Change.balance diff = (new.length : Int) - old.length

/-- The diff of two lists of lines edits the one into the other by way of the hunks
between them. -/
theorem EditScript.lineDiff (old new : List (List Char)) :
    EditScript old new (Hunk.between old new) (lineDiff old new) := by
  have tiles := Hunk.tiles_between old new
  have order := tiles.pairwise
  refine ⟨?_, ?_, ?_, ?_, order, ?_, ?_, ?_, ?_⟩
  · rw [Lineage.lineDiff, Layout.filter_isDelete]
    exact Layout.pairwise_part .delete old (order.imp And.left)
  · rw [Lineage.lineDiff, Layout.filter_isInsert]
    exact Layout.pairwise_part .insert new (order.imp And.right)
  · intro c hc delete
    have mem := List.mem_filter.mpr ⟨hc, delete⟩
    rw [Lineage.lineDiff, Layout.filter_isDelete] at mem
    obtain ⟨h, -, mem⟩ := List.mem_flatMap.mp mem
    exact Hunk.content_of_mem_part mem
  · intro c hc insert
    have mem := List.mem_filter.mpr ⟨hc, insert⟩
    rw [Lineage.lineDiff, Layout.filter_isInsert] at mem
    obtain ⟨h, -, mem⟩ := List.mem_flatMap.mp mem
    exact Hunk.content_of_mem_part mem
  · refine ⟨fun h => Hunk.part .delete old h.old, fun h => Hunk.part .insert new h.new, rfl,
      fun h c hc => ⟨(Layout.flags_of_mem hc).1, Hunk.line_of_mem_part hc⟩,
      fun h c hc => ⟨(Layout.flags_of_mem hc).2, Hunk.line_of_mem_part hc⟩⟩
  · exact tiles.untouched_eq (fun n _ => Hunk.names_delete tiles n)
      fun n _ => Hunk.names_insert tiles n
  · exact tiles.replay_eq
  · have balance := tiles.balance_eq
    rwa [Int.natCast_zero, Int.sub_zero, Int.sub_zero] at balance

end Lineage
