/-
# Measuring columns

Columns can be measured with any tab size but zero, which fails once there is a
tab to measure.

Key definitions: `columnAfter`, `measure`.
-/
import Lineage.Fault
import Lineage.Text.Column

namespace Lineage.Text

/-- The column after a text of one character that stands in `column`. Any text
but a tab takes up one column. -/
def columnAfter (tab column : Int) (text : List Char) : Except Fault Int :=
  if text = ['\t'] then
    if tab = 0 then .error .zeroTabSize else .ok (nextColumn tab column '\t')
  else .ok (column + 1)

/-- The column of what comes right after a text on its line. -/
def measure (tab : Int) (text : List Char) : Except Fault Int :=
  if tab = 0 ∧ '\t' ∈ text then .error .zeroTabSize else .ok (columnOf tab text)

end Lineage.Text
