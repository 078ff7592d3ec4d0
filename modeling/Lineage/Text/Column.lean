/-
# Columns

Columns count from one. A tab moves to the column after the next multiple of
the tab size, any other character to the next column. The rule is stated for
all integers, division rounding down, so it also answers for tab sizes that no
file is read with; with a positive tab size columns only grow
(`lt_nextColumn`).

Key definitions: `nextColumn`, `columnOf`.
-/
import Lineage.Text.Line

namespace Lineage.Text

/-- The column after a character that stands in `column`. -/
def nextColumn (tab column : Int) (c : Char) : Int :=
  if c = '\t' then (Int.fdiv (column - 1) tab + 1) * tab + 1 else column + 1

/-- The column of the character that comes right after `before` on its line. -/
def columnOf (tab : Int) (before : List Char) : Int :=
  before.foldl (nextColumn tab) 1

/-- With a positive tab size every character moves to the right. -/
theorem lt_nextColumn {tab : Int} (h : 1 ≤ tab) (column : Int) (c : Char) :
    column < nextColumn tab column c := by
  unfold nextColumn
  split
  · rw [Int.fdiv_eq_ediv_of_nonneg _ (by omega)]
    have := Int.lt_ediv_add_one_mul_self (column - 1) (show 0 < tab by omega)
    omega
  · omega

/-- With a positive tab size, characters only add to the column. -/
theorem le_foldl_nextColumn {tab : Int} (h : 1 ≤ tab) (before : List Char) (column : Int) :
    column ≤ before.foldl (nextColumn tab) column := by
  induction before generalizing column with
  | nil => simp
  | cons c rest ih =>
    have h₁ := lt_nextColumn h column c
    have h₂ := ih (nextColumn tab column c)
    simp only [List.foldl_cons]
    omega

theorem one_le_columnOf {tab : Int} (h : 1 ≤ tab) (before : List Char) : 1 ≤ columnOf tab before :=
  le_foldl_nextColumn h before 1

end Lineage.Text
