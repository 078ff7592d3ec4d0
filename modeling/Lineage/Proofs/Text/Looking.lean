/-
# Looking up places

Terminators stand at the end of a line only, and a look-up by column never goes past
the first one. So what it finds depends on the line without its terminators, and a
column that is found in one line is found at the same offset in every line with the
same plain text (`offsetInLine_stripEnd`). The place of an offset is the place of
its line and column (`placeAt_of_placeOf`).

Key definitions: `plainLines`.
Key theorems: `offsetInLine_stripEnd`, `placeAt_of_placeOf`.
-/
import Lineage.Text.Place

namespace Lineage.Text

/-- The lines of a text without their terminators. -/
def plainLines (text : List Char) : List (List Char) :=
  (splitLines text).map stripEnd

/-! ### The end of a line -/

theorem exists_stripEnd_append (text : List Char) :
    ∃ ending, text = stripEnd text ++ ending ∧ ∀ c ∈ ending, isTerminator c = true := by
  refine ⟨(text.reverse.takeWhile isTerminator).reverse, ?_, fun c hc => ?_⟩
  · unfold stripEnd
    rw [← List.reverse_append, List.takeWhile_append_dropWhile, List.reverse_reverse]
  · have all := List.all_takeWhile (p := isTerminator) (l := text.reverse)
    exact List.all_eq_true.mp all c (List.mem_reverse.mp hc)

theorem stripEnd_cons {c : Char} (h : isTerminator c = false) (text : List Char) :
    stripEnd (c :: text) = c :: stripEnd text := by
  unfold stripEnd
  rw [List.reverse_cons, List.dropWhile_append]
  split
  next none =>
    rw [List.isEmpty_iff] at none
    rw [none, List.dropWhile_cons_of_neg (by simp [h])]
    rfl
  next => rw [List.reverse_append, List.reverse_singleton, List.singleton_append]

theorem not_terminator_of_mem {text : List Char} {line : Line} (h : line ∈ splitLines text) :
    ∀ c ∈ stripEnd line, isTerminator c = false := by
  have alone : ∀ d, isTerminator d = true → stripEnd [d] = [] := by
    intro d hd
    unfold stripEnd
    rw [List.reverse_singleton, List.dropWhile_cons_of_pos hd]
    rfl
  fun_induction splitLines text generalizing line with
  | case1 => simp at h
  | case2 rest ih =>
    rcases List.mem_cons.mp h with rfl | h
    · intro c hc
      cases hc
    · exact ih h
  | case3 d rest _ hd ih =>
    rcases List.mem_cons.mp h with rfl | h
    · rw [alone d hd]
      intro c hc
      cases hc
    · exact ih h
  | case4 d rest _ hd none ih =>
    rw [List.mem_singleton.mp h, stripEnd_cons (by simpa using hd)]
    intro c hc
    rw [List.mem_singleton.mp hc]
    simpa using hd
  | case5 d rest _ hd first lines some ih =>
    rcases List.mem_cons.mp h with rfl | h
    · rw [stripEnd_cons (by simpa using hd)]
      intro c hc
      rcases List.mem_cons.mp hc with rfl | hc
      · simpa using hd
      · exact ih (by rw [some]; exact List.mem_cons_self) c hc
    · exact ih (by rw [some]; exact List.mem_cons_of_mem _ h)

/-! ### Columns in a line -/

section Columns

variable {tab : Int}

theorem offsetInLine_append (target : Int) {ending : List Char}
    (h : ∀ c ∈ ending, isTerminator c = true) : ∀ (column : Int) (body : List Char),
    offsetInLine tab target column (body ++ ending) = offsetInLine tab target column body
  | column, [] => by
    cases ending with
    | nil => rfl
    | cons c ending =>
      have stop : isTerminator c = true ∨ target < column := .inl (h c List.mem_cons_self)
      show offsetInLine tab target column (c :: ending) = none
      rw [offsetInLine, if_pos stop]
  | column, c :: body => by
    rw [List.cons_append, offsetInLine, offsetInLine, offsetInLine_append target h _ body]

/-- A look-up by column does not depend on the terminators. -/
theorem offsetInLine_stripEnd (target column : Int) (text : List Char) :
    offsetInLine tab target column text = offsetInLine tab target column (stripEnd text) := by
  obtain ⟨ending, split, terminators⟩ := exists_stripEnd_append text
  have same : offsetInLine tab target column (stripEnd text ++ ending) = _ :=
    offsetInLine_append target terminators column (stripEnd text)
  rwa [← split] at same

/-- The column of a character leads back to the character. -/
theorem offsetInLine_foldl (htab : 1 ≤ tab) {c : Char} (hc : isTerminator c = false)
    (rest : List Char) : ∀ (column : Int) (before : List Char),
    (∀ d ∈ before, isTerminator d = false) →
      offsetInLine tab (before.foldl (nextColumn tab) column) column (before ++ c :: rest) =
        some before.length
  | column, [], _ => by
    rw [List.foldl_nil, List.nil_append, offsetInLine, if_neg, if_pos rfl]
    · rfl
    · rintro (h | lt)
      · rw [hc] at h
        cases h
      · exact Int.lt_irrefl _ lt
  | column, d :: before, h => by
    have step := lt_nextColumn htab column d
    have onward := le_foldl_nextColumn htab before (nextColumn tab column d)
    rw [List.foldl_cons, List.cons_append, offsetInLine, if_neg, if_neg (by omega),
      offsetInLine_foldl htab hc rest _ before fun e he => h e (List.mem_cons_of_mem _ he)]
    · rfl
    · rintro (hd | lt)
      · rw [h d List.mem_cons_self] at hd
        cases hd
      · omega

end Columns

/-! ### Places -/

theorem placeAt_eq_some {tab line column : Int} {lines : List Line} {p : Place} :
    placeAt tab lines line column = some p ↔
      1 ≤ line ∧ 1 ≤ column ∧ ∃ (text : Line) (i : Nat), lines[(line - 1).toNat]? = some text ∧
        offsetInLine tab column 1 text = some i ∧ p.line = line ∧ p.column = column ∧
          p.offset = lineStart lines (line - 1).toNat + i ∧ p.lineOffset = i := by
  unfold placeAt
  split
  next h =>
    constructor
    · intro hp
      obtain ⟨text, ht, hp⟩ := Option.bind_eq_some_iff.mp hp
      obtain ⟨i, hi, hp⟩ := Option.bind_eq_some_iff.mp hp
      cases hp
      exact ⟨h.1, h.2, text, i, ht, hi, rfl, rfl, rfl, rfl⟩
    · rintro ⟨-, -, text, i, ht, hi, hline, hcolumn, hoffset, hlineOffset⟩
      refine Option.bind_eq_some_iff.mpr ⟨text, ht, Option.bind_eq_some_iff.mpr ⟨i, hi, ?_⟩⟩
      exact congrArg some (Place.ext hline.symm hcolumn.symm hoffset.symm hlineOffset.symm)
  next h =>
    constructor
    · intro hp
      cases hp
    · rintro ⟨hline, hcolumn, -⟩
      exact absurd ⟨hline, hcolumn⟩ h

theorem exists_placeAt {tab line column : Int} {lines : List Line} {text : Line} {i : Nat}
    (hline : 1 ≤ line) (hcolumn : 1 ≤ column) (ht : lines[(line - 1).toNat]? = some text)
    (hi : offsetInLine tab column 1 text = some i) :
    ∃ p : Place, placeAt tab lines line column = some p ∧ p.line = line ∧ p.column = column ∧
      p.lineOffset = i := by
  let p : Place := ⟨line, column, lineStart lines (line - 1).toNat + i, i, hline, hcolumn,
    by omega, by omega⟩
  exact ⟨p, placeAt_eq_some.mpr ⟨hline, hcolumn, text, i, ht, hi, rfl, rfl, rfl, rfl⟩,
    rfl, rfl, rfl⟩

theorem spotAt_eq_some : ∀ {lines : List Line} {offset : Nat} {s : Spot},
    spotAt lines offset = some s →
      ∃ text rest, lines[s.linesBefore]? = some text ∧ text = s.before ++ s.char :: rest ∧
        offset = lineStart lines s.linesBefore + s.before.length
  | [], _, _, h => by cases h
  | first :: others, offset, s, h => by
    rw [spotAt] at h
    split at h
    next c hc =>
      cases h
      have lt := (List.getElem?_eq_some_iff.mp hc).1
      refine ⟨first, first.drop (offset + 1), rfl, ?_, ?_⟩
      · rw [← (List.getElem?_eq_some_iff.mp hc).2, List.getElem_cons_drop,
          List.take_append_drop]
      · show offset = _
        rw [List.length_take, Nat.min_eq_left (Nat.le_of_lt lt)]
        exact (Nat.zero_add offset).symm
    next hc =>
      have short := List.getElem?_eq_none_iff.mp hc
      obtain ⟨s', hs, rfl⟩ := Option.map_eq_some_iff.mp h
      obtain ⟨text, rest, ht, split, place⟩ := spotAt_eq_some hs
      refine ⟨text, rest, ht, split, ?_⟩
      have start : lineStart (first :: others) (s'.linesBefore + 1) =
          first.length + lineStart others s'.linesBefore := by
        unfold lineStart
        rw [List.take_succ_cons, List.flatten_cons, List.length_append]
      show offset = lineStart (first :: others) (s'.linesBefore + 1) + s'.before.length
      omega

theorem not_terminator_before {text : List Char} {line : Line} (h : line ∈ splitLines text)
    {before rest : List Char} {c : Char} (split : line = before ++ c :: rest)
    (plain : isTerminator c = false) : ∀ d ∈ before, isTerminator d = false := by
  obtain ⟨ending, strip, terminators⟩ := exists_stripEnd_append line
  have within := not_terminator_of_mem h
  rw [split] at strip within
  rcases List.append_eq_append_iff.mp strip with ⟨more, left, right⟩ | ⟨more, left, right⟩
  · intro d hd
    exact within d (by rw [left]; exact List.mem_append_left _ hd)
  · cases more with
    | nil =>
      intro d hd
      rw [List.append_nil] at left
      exact within d (by rwa [← left])
    | cons e more =>
      have last := terminators c (by rw [right]; simp)
      rw [plain] at last
      cases last

/-- The place of an offset is the place of its line and column. -/
theorem placeAt_of_placeOf {tab offset : Int} {text : List Char} {p : Place}
    (h : placeOf tab (splitLines text) offset = some p) :
    placeAt tab (splitLines text) p.line p.column = some p := by
  unfold placeOf at h
  split at h
  next pos =>
    obtain ⟨s, hs, h⟩ := Option.bind_eq_some_iff.mp h
    split at h
    · cases h
    next plain =>
      cases h
      have plain : isTerminator s.char = false := by simpa using plain
      obtain ⟨line, rest, hl, split, place⟩ := spotAt_eq_some hs
      have before := not_terminator_before (List.mem_of_getElem? hl) split plain
      show placeAt tab _ ((s.linesBefore : Int) + 1) (columnOf tab s.before) = some _
      refine placeAt_eq_some.mpr ⟨by omega, one_le_columnOf pos.2 _, line, s.before.length, ?_, ?_,
        rfl, rfl, ?_, rfl⟩
      · rw [← hl]
        exact congrArg ((splitLines text)[·]?) (by omega)
      · rw [split]
        exact offsetInLine_foldl pos.2 plain rest 1 s.before before
      · show offset = _
        rw [show ((s.linesBefore : Int) + 1 - 1).toNat = s.linesBefore by omega]
        omega
  · cases h

end Lineage.Text
