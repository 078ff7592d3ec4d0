/-
# Columns of a line

With a positive tab size columns grow along a line, so its characters are in the order of their
columns (`columnOf_take_lt_iff`). A look-up by column follows the line until it comes to the column
or past it. It comes past it at a tab only, since every other character takes up one column. So of
the columns before a character those are missed that lie strictly between the column of a tab and
the column of the character after it (`offsetInLine_eq_none_iff`).

Key definitions: `InsideTab`.
Key theorems: `columnOf_take_lt_iff`, `offsetInLine_eq_none_iff`.
-/
import Lineage.Proofs.Text.Cutting

namespace Lineage.Text

/-- A column lies inside a tab of a line: behind the column of the tab, and before the column of
what comes after it. -/
def InsideTab (tab : Int) (row : List Char) (column : Int) : Prop :=
  ∃ i, row[i]? = some '\t' ∧ columnOf tab (row.take i) < column ∧
    column < columnOf tab (row.take (i + 1))

section Columns

variable {tab : Int}

theorem columnOf_lt_append (htab : 1 ≤ tab) (before : List Char) (c : Char) (more : List Char) :
    columnOf tab before < columnOf tab (before ++ c :: more) := by
  have step := lt_nextColumn htab (columnOf tab before) c
  have onward := le_foldl_nextColumn htab more (nextColumn tab (columnOf tab before) c)
  calc columnOf tab before < more.foldl (nextColumn tab) (nextColumn tab (columnOf tab before) c) :=
        Int.lt_of_lt_of_le step onward
    _ = columnOf tab (before ++ c :: more) := by rw [columnOf, columnOf, List.foldl_append]; rfl

theorem columnOf_take_lt (htab : 1 ≤ tab) {row : List Char} {i j : Nat} (lt : i < j)
    (bound : j ≤ row.length) : columnOf tab (row.take i) < columnOf tab (row.take j) := by
  have inside : i < row.length := Nat.lt_of_lt_of_le lt bound
  have split : row.take j = row.take i ++ row[i] :: (row.drop (i + 1)).take (j - i - 1) := by
    obtain ⟨n, rfl⟩ : ∃ n, j = i + (n + 1) := ⟨j - i - 1, by omega⟩
    rw [List.take_add, List.drop_eq_getElem_cons inside, List.take_succ_cons]
    congr 3
    omega
  rw [split]
  exact columnOf_lt_append htab _ _ _

/-- The characters of a line are in the order of their columns. -/
theorem columnOf_take_lt_iff (htab : 1 ≤ tab) {row : List Char} {i j : Nat}
    (hi : i ≤ row.length) (hj : j ≤ row.length) :
    columnOf tab (row.take i) < columnOf tab (row.take j) ↔ i < j := by
  refine ⟨fun lt => Nat.lt_of_not_le fun le => ?_, fun lt => columnOf_take_lt htab lt hj⟩
  rcases Nat.lt_or_eq_of_le le with behind | rfl
  · exact Int.lt_asymm lt (columnOf_take_lt htab behind hi)
  · exact Int.lt_irrefl _ lt

/-- A column before some place of a line is missed at a tab only: any other character that is
passed stands right before the next column. -/
theorem exists_tab_of_missed {target : Int} {more : List Char} :
    ∀ {column : Int} {front : List Char}, (∀ c ∈ front, isTerminator c = false) →
      column ≤ target → target < front.foldl (nextColumn tab) column →
        offsetInLine tab target column (front ++ more) = none →
          ∃ i, front[i]? = some '\t' ∧ (front.take i).foldl (nextColumn tab) column < target ∧
            target < (front.take (i + 1)).foldl (nextColumn tab) column
  | column, [], _, le, lt, _ => absurd lt (Int.not_lt.mpr le)
  | column, c :: front, plain, le, lt, missed => by
    have notEnd : isTerminator c = false := plain c List.mem_cons_self
    have onward : ¬ (isTerminator c = true ∨ target < column) := by
      rintro (ends | behind)
      · rw [notEnd] at ends
        cases ends
      · omega
    rw [List.cons_append, offsetInLine, if_neg onward] at missed
    have ne : column ≠ target := by
      rintro rfl
      rw [if_pos rfl] at missed
      cases missed
    rw [if_neg ne, Option.map_eq_none_iff] at missed
    by_cases reached : nextColumn tab column c ≤ target
    · obtain ⟨i, isTab, before, behind⟩ := exists_tab_of_missed
        (fun d hd => plain d (List.mem_cons_of_mem _ hd)) reached lt missed
      exact ⟨i + 1, isTab, before, behind⟩
    · -- missed between `c` and the character after it, so `c` takes up more than one column
      have isTab : c = '\t' := by
        refine Decidable.byContradiction fun other => ?_
        rw [nextColumn, if_neg other] at reached
        omega
      refine ⟨0, by rw [isTab]; rfl, by simp only [List.take_zero, List.foldl_nil]; omega, ?_⟩
      exact Int.not_le.mp reached

/-- A column inside a tab is missed: the character found there would stand between neighbours. -/
theorem offsetInLine_of_insideTab (htab : 1 ≤ tab) {row : List Char} {column : Int}
    (inside : InsideTab tab row column) : offsetInLine tab column 1 row = none := by
  obtain ⟨i, isTab, before, behind⟩ := inside
  have bound := (List.getElem?_eq_some_iff.mp isTab).1
  refine Option.eq_none_iff_forall_ne_some.mpr fun j found => ?_
  obtain ⟨front, c, rest, rfl, rfl, -, reached⟩ := exists_of_offsetInLine found
  have here : columnOf tab ((front ++ c :: rest).take front.length) = column := by
    rw [List.take_left]
    exact reached
  have length : front.length ≤ (front ++ c :: rest).length := by simp
  rw [← here] at before behind
  have left := (columnOf_take_lt_iff htab (Nat.le_of_lt bound) length).mp before
  have right := (columnOf_take_lt_iff htab length bound).mp behind
  omega

/-- Of the columns before a character of a line those are missed that lie inside a tab. -/
theorem offsetInLine_eq_none_iff (htab : 1 ≤ tab) {row : List Char} {n : Nat}
    (plain : ∀ c ∈ row.take n, isTerminator c = false) {column : Int} (one_le : 1 ≤ column)
    (lt : column < columnOf tab (row.take n)) :
    offsetInLine tab column 1 row = none ↔ InsideTab tab row column := by
  refine ⟨fun missed => ?_, offsetInLine_of_insideTab htab⟩
  rw [← List.take_append_drop n row] at missed
  obtain ⟨i, isTab, before, behind⟩ := exists_tab_of_missed plain one_le lt missed
  have bound := (List.getElem?_eq_some_iff.mp isTab).1
  rw [List.length_take] at bound
  rw [List.take_take, Nat.min_eq_left (by omega)] at before behind
  rw [List.getElem?_take_of_lt (by omega)] at isTab
  exact ⟨i, isTab, before, behind⟩

/-- A look-up in a line that there is misses the columns that are missed in the line. -/
theorem placeAt_eq_none_iff {line column : Int} (hline : 1 ≤ line) (hcolumn : 1 ≤ column)
    {lines : List Line} {row : Line} (hrow : lines[(line - 1).toNat]? = some row) :
    placeAt tab lines line column = none ↔ offsetInLine tab column 1 row = none := by
  rw [placeAt, dif_pos ⟨hline, hcolumn⟩, hrow, Option.bind_eq_bind, Option.bind_some]
  cases offsetInLine tab column 1 row with
  | none => exact iff_of_true rfl rfl
  | some i => exact iff_of_false (Option.some_ne_none _) (Option.some_ne_none i)

end Columns

/-! ### Places in a line -/

section Rows

variable {text : List Char} {row : Line} {i : Nat}

theorem PlainAt.not_terminator_take (h : PlainAt row i) (hrow : row ∈ splitLines text) :
    ∀ c ∈ row.take i, isTerminator c = false := by
  obtain ⟨c, hc, plain⟩ := h
  obtain ⟨bound, rfl⟩ := List.getElem?_eq_some_iff.mp hc
  have split : row = row.take i ++ row[i] :: row.drop (i + 1) := by
    rw [List.getElem_cons_drop, List.take_append_drop]
  exact not_terminator_before hrow split plain

theorem PlainAt.of_le (h : PlainAt row i) (hrow : row ∈ splitLines text) {j : Nat} (le : j ≤ i) :
    PlainAt row j := by
  rcases Nat.lt_or_eq_of_le le with lt | rfl
  · have bound : j < row.length := Nat.lt_trans lt h.lt
    refine ⟨row[j], List.getElem?_eq_getElem bound, h.not_terminator_take hrow _ ?_⟩
    exact List.mem_take_iff_getElem.mpr ⟨j, by omega, rfl⟩
  · exact h

end Rows

end Lineage.Text
