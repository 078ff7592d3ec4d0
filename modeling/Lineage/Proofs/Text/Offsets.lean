/-
# Places by offset

An offset is found in the line that begins last among those that begin no later, so
many lines end before it as come before that line, and the line's own characters up
to the offset are those of the text (`placeOf_eq_some`). There is a place at every
offset but those of terminators (`isSome_placeOf`). A place found by line and column
is found again by its offset (`placeOf_of_placeAt`), which is the other half of
`placeAt_of_placeOf`. The last offset of a line is the place of the last character that
does not end it (`exists_of_lastOffset`).

Key definitions: `linesBefore`.
Key theorems: `isSome_placeOf`, `placeOf_eq_some`, `placeOf_of_placeAt`, `exists_of_lastOffset`.
-/
import Lineage.Proofs.Text.Looking

namespace Lineage.Text

/-- The number of lines that lie before an offset, terminators included. -/
def linesBefore (lines : List Line) (offset : Nat) : Nat :=
  (List.range lines.length).countP fun k => decide (lineStart lines (k + 1) ≤ offset)

/-! ### Where lines start -/

section Start

variable {lines : List Line} {line : Line} {k offset : Nat}

theorem lineStart_cons (line : Line) (lines : List Line) (k : Nat) :
    lineStart (line :: lines) (k + 1) = line.length + lineStart lines k := by
  simp [lineStart]

theorem lineStart_succ (h : lines[k]? = some line) :
    lineStart lines (k + 1) = lineStart lines k + line.length := by
  simp [lineStart, List.take_add_one, h]

theorem lineStart_le_succ (lines : List Line) (k : Nat) :
    lineStart lines k ≤ lineStart lines (k + 1) := by
  simp [lineStart, List.take_add_one]

theorem lineStart_mono (lines : List Line) {i k : Nat} (h : i ≤ k) :
    lineStart lines i ≤ lineStart lines k := by
  induction h with
  | refl => exact Nat.le_refl _
  | step _ ih => exact Nat.le_trans ih (lineStart_le_succ lines _)

/-- Before an offset in line `k` there are `k` lines. -/
theorem linesBefore_eq (h : lines[k]? = some line) (from_le : lineStart lines k ≤ offset)
    (lt : offset < lineStart lines k + line.length) : linesBefore lines offset = k := by
  have inside : k < lines.length := (List.getElem?_eq_some_iff.mp h).1
  have split : List.range lines.length =
      List.range k ++ List.range' k (lines.length - k) := by
    have parts := List.range'_append_1 (s := 0) (m := k) (n := lines.length - k)
    rw [Nat.zero_add, Nat.add_sub_cancel' (Nat.le_of_lt inside)] at parts
    rw [List.range_eq_range', List.range_eq_range', parts]
  have above : (List.range k).countP (fun i => decide (lineStart lines (i + 1) ≤ offset)) = k := by
    rw [List.countP_eq_length.mpr, List.length_range]
    intro i hi
    have le := lineStart_mono lines (show i + 1 ≤ k from List.mem_range.mp hi)
    simp only [decide_eq_true_eq]
    omega
  have below : (List.range' k (lines.length - k)).countP
      (fun i => decide (lineStart lines (i + 1) ≤ offset)) = 0 := by
    rw [List.countP_eq_zero]
    intro i hi
    have next := lineStart_succ h
    have behind := (List.mem_range'_1.mp hi).1
    have le := lineStart_mono lines (show k + 1 ≤ i + 1 by omega)
    simp only [decide_eq_true_eq]
    omega
  rw [linesBefore, split, List.countP_append, above, below, Nat.add_zero]

theorem flatten_drop_lineStart (h : lines[k]? = some line) :
    lines.flatten.drop (lineStart lines k) = line ++ (lines.drop (k + 1)).flatten := by
  have inside : k < lines.length := (List.getElem?_eq_some_iff.mp h).1
  have parts : lines.flatten = (lines.take k).flatten ++ (lines.drop k).flatten := by
    rw [← List.flatten_append, List.take_append_drop]
  have here : lines.drop k = line :: lines.drop (k + 1) := by
    rw [List.drop_eq_getElem_cons inside, (List.getElem?_eq_some_iff.mp h).2]
  rw [parts, lineStart, List.drop_left, here, List.flatten_cons]

theorem take_drop_lineStart {before rest : List Char} (h : lines[k]? = some (before ++ rest)) :
    (lines.flatten.take (lineStart lines k + before.length)).drop (lineStart lines k) =
      before := by
  rw [List.drop_take, flatten_drop_lineStart h, Nat.add_sub_cancel_left, List.append_assoc,
    List.take_left]

end Start

/-! ### Spots -/

theorem char_spotAt : ∀ (lines : List Line) (offset : Nat),
    (spotAt lines offset).map Spot.char = lines.flatten[offset]?
  | [], offset => by simp [spotAt]
  | first :: others, offset => by
    rw [spotAt, List.flatten_cons]
    by_cases lt : offset < first.length
    · rw [List.getElem?_append_left lt, List.getElem?_eq_getElem lt]
      rfl
    · have le : first.length ≤ offset := Nat.le_of_not_lt lt
      rw [List.getElem?_append_right le, List.getElem?_eq_none le, ← char_spotAt others]
      simp only [Option.map_map]
      rfl

theorem spotAt_lineStart {before rest : List Char} {c : Char} :
    ∀ {lines : List Line} {k : Nat}, lines[k]? = some (before ++ c :: rest) →
      spotAt lines (lineStart lines k + before.length) = some ⟨k, before, c⟩
  | [], _, h => by simp at h
  | first :: others, 0, h => by
    have here : first = before ++ c :: rest := by simpa using h
    have at_c : first[before.length]? = some c := by simp [here]
    have start : lineStart (first :: others) 0 = 0 := by simp [lineStart]
    rw [start, Nat.zero_add, spotAt, at_c]
    simp [here]
  | first :: others, k + 1, h => by
    have ih : spotAt others (lineStart others k + before.length) = some ⟨k, before, c⟩ :=
      spotAt_lineStart (by simpa using h)
    have place : lineStart (first :: others) (k + 1) + before.length - first.length =
        lineStart others k + before.length := by
      rw [lineStart_cons]
      omega
    have beyond : first[lineStart (first :: others) (k + 1) + before.length]? = none := by
      rw [List.getElem?_eq_none_iff, lineStart_cons]
      omega
    rw [spotAt, beyond]
    simp only [place, ih, Option.map_some]

/-! ### Columns -/

/-- A column that is found is that of a character that ends no line, and it comes right
after what stands before that character. -/
theorem exists_of_offsetInLine {tab target : Int} :
    ∀ {column : Int} {text : List Char} {i : Nat}, offsetInLine tab target column text = some i →
      ∃ before c rest, text = before ++ c :: rest ∧ before.length = i ∧
        isTerminator c = false ∧ before.foldl (nextColumn tab) column = target
  | _, [], _, h => by simp [offsetInLine] at h
  | column, c :: rest, i, h => by
    rw [offsetInLine] at h
    by_cases stop : isTerminator c ∨ target < column
    · simp [stop] at h
    · have plain : isTerminator c = false := by simp_all
      rw [if_neg stop] at h
      by_cases here : column = target
      · rw [if_pos here] at h
        exact ⟨[], c, rest, rfl, by simpa using h, plain, here⟩
      · rw [if_neg here] at h
        obtain ⟨n, hn, rfl⟩ := Option.map_eq_some_iff.mp h
        obtain ⟨before, d, later, rfl, rfl, hd, reached⟩ := exists_of_offsetInLine hn
        exact ⟨c :: before, d, later, rfl, rfl, hd, reached⟩

/-! ### Places -/

section Places

variable {tab : Int} {text : List Char} {p : Place}

/-- There is a place at every offset but those of terminators. -/
theorem isSome_placeOf (htab : 1 ≤ tab) (text : List Char) (offset : Nat) :
    (placeOf tab (splitLines text) offset).isSome ↔
      ∃ h : offset < text.length, text[offset] ≠ '\n' ∧ text[offset] ≠ '\r' := by
  have found := char_spotAt (splitLines text) offset
  rw [flatten_splitLines] at found
  have valid : (0 : Int) ≤ offset ∧ 1 ≤ tab := ⟨by omega, htab⟩
  rw [placeOf, dif_pos valid, Int.toNat_natCast]
  by_cases inside : offset < text.length
  · rw [List.getElem?_eq_getElem inside] at found
    obtain ⟨s, hs, char⟩ := Option.map_eq_some_iff.mp found
    have plain : isTerminator s.char = false ↔ s.char ≠ '\n' ∧ s.char ≠ '\r' := by
      simp [isTerminator]
    simp only [hs, Option.bind_eq_bind, Option.bind_some, inside, exists_true_left, ← char, ← plain]
    by_cases ends : isTerminator s.char = true
    · simp [ends]
    · simp [ends]
  · rw [List.getElem?_eq_none (Nat.le_of_not_lt inside)] at found
    simp [Option.map_eq_none_iff.mp found, inside]

/-- What a look-up by offset finds. -/
theorem placeOf_eq_some {offset : Nat} (h : placeOf tab (splitLines text) offset = some p) :
    let start := lineStart (splitLines text) (linesBefore (splitLines text) offset)
    p.offset = offset ∧ p.line = 1 + linesBefore (splitLines text) offset ∧
      p.lineOffset = offset - start ∧ p.column = columnOf tab ((text.take offset).drop start) := by
  intro start
  unfold placeOf at h
  split at h
  next pos =>
    obtain ⟨s, hs, h⟩ := Option.bind_eq_some_iff.mp h
    split at h
    · cases h
    next plain =>
      obtain ⟨line, rest, hl, split, place⟩ := spotAt_eq_some hs
      rw [Int.toNat_natCast] at place
      have length : line.length = s.before.length + (rest.length + 1) := by simp [split]
      have count : linesBefore (splitLines text) offset = s.linesBefore :=
        linesBefore_eq hl (by omega) (by omega)
      have between : (text.take offset).drop start = s.before := by
        have parts := take_drop_lineStart (split ▸ hl)
        rw [flatten_splitLines] at parts
        simp only [start]
        rw [count, place, parts]
      cases h
      refine ⟨rfl, ?_, ?_, ?_⟩
      · show (s.linesBefore : Int) + 1 = _
        rw [count]
        omega
      · show (s.before.length : Int) = _
        simp only [start]
        rw [count, place]
        omega
      · show columnOf tab s.before = _
        rw [between]
  · cases h

theorem exists_placeOf (htab : 1 ≤ tab) {k : Nat} {before rest : List Char} {c : Char}
    (hk : (splitLines text)[k]? = some (before ++ c :: rest)) (plain : isTerminator c = false) :
    ∃ p, placeOf tab (splitLines text) (lineStart (splitLines text) k + before.length : Nat) =
        some p ∧ p.line = k + 1 ∧ p.column = columnOf tab before ∧
      p.offset = (lineStart (splitLines text) k + before.length : Nat) ∧
      p.lineOffset = before.length := by
  have spot := spotAt_lineStart hk
  rw [placeOf, dif_pos ⟨by omega, htab⟩, Int.toNat_natCast, spot]
  simp only [Option.bind_eq_bind, Option.bind_some, plain, Bool.false_eq_true, if_false]
  exact ⟨_, rfl, rfl, rfl, rfl, rfl⟩

/-- The place of a line and column is the place of its offset. -/
theorem placeOf_of_placeAt (htab : 1 ≤ tab) {line column : Int}
    (h : placeAt tab (splitLines text) line column = some p) :
    placeOf tab (splitLines text) p.offset = some p := by
  obtain ⟨hline, -, row, i, hrow, hi, eline, ecolumn, eoffset, elineOffset⟩ :=
    placeAt_eq_some.mp h
  obtain ⟨before, c, rest, rfl, rfl, plain, reached⟩ := exists_of_offsetInLine hi
  obtain ⟨q, found, qline, qcolumn, qoffset, qlineOffset⟩ := exists_placeOf htab hrow plain
  have offset : p.offset =
      (lineStart (splitLines text) (line - 1).toNat + before.length : Nat) := by omega
  have column : p.column = columnOf tab before := ecolumn.trans reached.symm
  rw [offset, found]
  congr 1
  apply Place.ext
  · omega
  · rw [qcolumn, column]
  · omega
  · omega

theorem lastOffset_nonneg {lines : List Line} {line offset : Int}
    (h : lastOffset lines line = some offset) : 0 ≤ offset := by
  unfold lastOffset at h
  split at h
  · split at h
    · cases h
    · split at h
      · cases h
      · cases h
        omega
  · cases h

/-- The last offset of a line is the place of its last character before the terminators. -/
theorem exists_of_lastOffset (htab : 1 ≤ tab) {line offset : Int}
    (h : lastOffset (splitLines text) line = some offset) :
    ∃ p body, placeOf tab (splitLines text) offset = some p ∧ p.line = line ∧
      (plainLines text)[(line - 1).toNat]? = some body ∧ p.lineOffset + 1 = body.length := by
  unfold lastOffset at h
  split at h
  next pos =>
    split at h
    · cases h
    next row hrow =>
      split at h
      · cases h
      next n length =>
        obtain ⟨ending, split, -⟩ := exists_stripEnd_append row
        have filled : stripEnd row ≠ [] := List.ne_nil_of_length_eq_add_one length
        have parts := List.dropLast_concat_getLast filled
        have front : (stripEnd row).dropLast.length = n := by
          rw [List.length_dropLast, length, Nat.succ_sub_one]
        have plain := not_terminator_of_mem (List.mem_of_getElem? hrow) _
          (List.getLast_mem filled)
        rw [← parts, List.append_assoc] at split
        obtain ⟨p, found, onLine, -, -, lineOffset⟩ := exists_placeOf htab (split ▸ hrow) plain
        cases h
        refine ⟨p, stripEnd row, ?_, by omega, ?_, by omega⟩
        · rwa [front, Int.natCast_add] at found
        · rw [plainLines, List.getElem?_map, hrow]
          rfl
  · cases h

end Places

end Lineage.Text
