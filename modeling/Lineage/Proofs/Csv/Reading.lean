/-
# A table is read as it was written

A reader goes over the characters of a table one by one. It is at the start of a field, within a
bare field, between quotes, or after a quote that may close them; outside quotes the delimiter
ends a field, and a carriage return, a line feed or both together end a row. A line with nothing
on it is a row without fields. The reader sets no limit to the length of a field, as one would
have to in order to read tables of any origin: it takes a field of any length that was written.

What is written of a field leaves the reader with just that field (`foldl_field`), and so a row is
read field by field (`foldl_row`) and a table row by row (`read_table`). Only the row of one empty
field is out of the reader's sight: nothing tells it from a row without fields.

Key definitions: `Csv.Mode`, `Csv.Reader`, `Csv.Reader.step`, `Csv.read`.
Key theorems: `Csv.Reader.foldl_field`, `Csv.Reader.foldl_row`, `Csv.read_table`.
-/
import Lineage.Csv

namespace Lineage.Csv

/-- Where a reader is. -/
inductive Mode where
  | start
  | bare
  | quoted
  | afterQuote
  | afterReturn
  deriving DecidableEq, Repr

/-- What a reader has found: the rows before the one it is in, the fields of that row before the
one it is in, and the characters of that field. -/
structure Reader where
  rows : List (List (List Char))
  row : List (List Char)
  field : List Char
  mode : Mode
  deriving DecidableEq, Repr

namespace Reader

/-- A reader that has found nothing yet. -/
def fresh : Reader :=
  ⟨[], [], [], .start⟩

/-- Whether nothing of a row has been found. -/
def isBlank (r : Reader) : Bool :=
  r.row.isEmpty && (r.mode == .start || r.mode == .afterReturn)

/-- The fields of the row, the last one included. -/
def fields (r : Reader) : List (List Char) :=
  if r.isBlank then [] else r.row ++ [r.field]

def add (r : Reader) (c : Char) (mode : Mode) : Reader :=
  { r with field := r.field ++ [c], mode }

def endField (r : Reader) : Reader :=
  { r with row := r.row ++ [r.field], field := [], mode := .start }

def endRow (r : Reader) (mode : Mode) : Reader :=
  ⟨r.rows ++ [r.fields], [], [], mode⟩

/-- A character outside quotes. -/
def outside (delimiter : Char) (r : Reader) (c : Char) : Reader :=
  if c = delimiter then r.endField
  else if c = '\n' then r.endRow .start
  else if c = '\r' then r.endRow .afterReturn
  else r.add c .bare

/-- The first character of a field. -/
def first (delimiter : Char) (r : Reader) (c : Char) : Reader :=
  if c = '"' then { r with mode := .quoted } else r.outside delimiter c

/-- The next character. -/
def step (delimiter : Char) (r : Reader) (c : Char) : Reader :=
  match r.mode with
  | .start => r.first delimiter c
  | .bare => r.outside delimiter c
  | .quoted => if c = '"' then { r with mode := .afterQuote } else r.add c .quoted
  | .afterQuote => if c = '"' then r.add c .quoted else r.outside delimiter c
  | .afterReturn => if c = '\n' then { r with mode := .start } else r.first delimiter c

/-- All rows, once there are no more characters. -/
def finish (r : Reader) : List (List (List Char)) :=
  if r.isBlank then r.rows else r.rows ++ [r.fields]

end Reader

/-- The rows of a text. -/
def read (delimiter : Char) (text : List Char) : List (List (List Char)) :=
  (text.foldl (Reader.step delimiter) .fresh).finish

namespace Reader

variable {delimiter : Char} {rows : List (List (List Char))} {row : List (List Char)}
  {text field : List Char}

/-- Between quotes every character counts, and doubled quotes count once. -/
theorem foldl_doubleQuotes (text : List Char) :
    (doubleQuotes text).foldl (step delimiter) ⟨rows, row, field, .quoted⟩ =
      ⟨rows, row, field ++ text, .quoted⟩ := by
  induction text generalizing field with
  | nil => simp [doubleQuotes]
  | cons c text ih =>
    have next : (if c = '"' then ['"', '"'] else [c]).foldl (step delimiter)
        ⟨rows, row, field, .quoted⟩ = ⟨rows, row, field ++ [c], .quoted⟩ := by
      split
      next quote => simp [quote, step, add]
      next other => simp [other, step, add]
    rw [doubleQuotes, List.flatMap_cons, List.foldl_append, next, ← doubleQuotes, ih,
      List.append_assoc, List.singleton_append]

theorem foldl_bare (plain : needsQuotes delimiter text = false) :
    text.foldl (step delimiter) ⟨rows, row, field, .bare⟩ = ⟨rows, row, field ++ text, .bare⟩ := by
  induction text generalizing field with
  | nil => simp
  | cons c text ih =>
    simp only [needsQuotes, List.any_cons, Bool.or_eq_false_iff, beq_eq_false_iff_ne] at plain
    obtain ⟨⟨⟨⟨hd, -⟩, hr⟩, hn⟩, others⟩ := plain
    have next : step delimiter ⟨rows, row, field, .bare⟩ c = ⟨rows, row, field ++ [c], .bare⟩ := by
      simp only [step, outside, if_neg hd, if_neg hn, if_neg hr, add]
    rw [List.foldl_cons, next, ih others, List.append_assoc, List.singleton_append]

/-- Where a reader can be after all characters of a field; at its start only if it has none. -/
def Ends (mode : Mode) (text : List Char) : Prop :=
  mode = .start ∧ text = [] ∨ mode = .bare ∨ mode = .afterQuote

/-- From its start a field is read as it was written. -/
theorem foldl_field (delimiter : Char) (rows : List (List (List Char))) (row : List (List Char))
    (text : List Char) : ∃ mode, Ends mode text ∧
      (Csv.field delimiter text).foldl (step delimiter) ⟨rows, row, [], .start⟩ =
        ⟨rows, row, text, mode⟩ := by
  unfold Csv.field
  split
  · refine ⟨.afterQuote, .inr (.inr rfl), ?_⟩
    rw [List.foldl_cons, List.foldl_append]
    have opened : step delimiter ⟨rows, row, [], .start⟩ '"' = ⟨rows, row, [], .quoted⟩ := rfl
    rw [opened, foldl_doubleQuotes]
    rfl
  next plain =>
    cases text with
    | nil => exact ⟨.start, .inl ⟨rfl, rfl⟩, rfl⟩
    | cons c text =>
      simp only [needsQuotes, List.any_cons, Bool.not_eq_true, Bool.or_eq_false_iff,
        beq_eq_false_iff_ne] at plain
      obtain ⟨⟨⟨⟨hd, hq⟩, hr⟩, hn⟩, others⟩ := plain
      have first : step delimiter ⟨rows, row, [], .start⟩ c = ⟨rows, row, [c], .bare⟩ := by
        simp only [step, first, outside, if_neg hd, if_neg hq, if_neg hn, if_neg hr, add,
          List.nil_append]
      exact ⟨.bare, .inr (.inl rfl), by rw [List.foldl_cons, first, foldl_bare others]; rfl⟩

theorem step_delimiter (quote : delimiter ≠ '"') {mode : Mode} (h : Ends mode text) :
    step delimiter ⟨rows, row, text, mode⟩ delimiter = ⟨rows, row ++ [text], [], .start⟩ := by
  obtain ⟨rfl, -⟩ | rfl | rfl := h <;> simp [step, first, outside, endField, quote]

/-- A carriage return and a line feed end a row, unless it is the one of one empty field. -/
theorem foldl_end (back : delimiter ≠ '\r') {mode : Mode} (h : Ends mode text)
    (filled : row ≠ [] ∨ text ≠ []) :
    ['\r', '\n'].foldl (step delimiter) ⟨rows, row, text, mode⟩ =
      ⟨rows ++ [row ++ [text]], [], [], .start⟩ := by
  have visible : (⟨rows, row, text, mode⟩ : Reader).isBlank = false := by
    obtain ⟨rfl, rfl⟩ | rfl | rfl := h <;> simp_all [isBlank]
  have returned : step delimiter ⟨rows, row, text, mode⟩ '\r' =
      ⟨rows ++ [row ++ [text]], [], [], .afterReturn⟩ := by
    obtain ⟨rfl, -⟩ | rfl | rfl := h <;>
      simp [step, first, outside, endRow, fields, visible, Ne.symm back]
  rw [List.foldl_cons, returned]
  rfl

section Row

variable (quote : delimiter ≠ '"') (back : delimiter ≠ '\r')
include quote back

/-- A row is read as it was written, after the fields that were read before. -/
theorem foldl_row : ∀ (texts : List (List Char)) (row : List (List Char)), texts ≠ [] →
    (row ≠ [] ∨ texts ≠ [[]]) →
      (Csv.row delimiter texts).foldl (step delimiter) ⟨rows, row, [], .start⟩ =
        ⟨rows ++ [row ++ texts], [], [], .start⟩
  | [], _, told, _ => absurd rfl told
  | [text], row, _, filled => by
    obtain ⟨mode, ends, read⟩ := foldl_field delimiter rows row text
    rw [Csv.row, Csv.fields, List.foldl_append, read, foldl_end back ends]
    exact filled.imp_right fun h => by simpa using h
  | text :: next :: texts, row, _, _ => by
    obtain ⟨mode, ends, read⟩ := foldl_field delimiter rows row text
    have others := foldl_row (next :: texts) (row ++ [text]) (List.cons_ne_nil _ _) (.inl (by simp))
    rw [Csv.row, List.foldl_append] at others
    have fields : Csv.fields delimiter (text :: next :: texts) =
        Csv.field delimiter text ++ delimiter :: Csv.fields delimiter (next :: texts) := rfl
    rw [Csv.row, fields, List.append_assoc, List.foldl_append, read, List.cons_append,
      List.foldl_cons, step_delimiter quote ends, List.foldl_append, others, List.append_assoc,
      List.singleton_append]

theorem foldl_table (table : List (List (List Char))) (told : ∀ row ∈ table, row ≠ [[]]) :
    (Csv.table delimiter table).foldl (step delimiter) ⟨rows, [], [], .start⟩ =
      ⟨rows ++ table, [], [], .start⟩ := by
  induction table generalizing rows with
  | nil => simp [Csv.table]
  | cons row table ih =>
    have here : (Csv.row delimiter row).foldl (step delimiter) ⟨rows, [], [], .start⟩ =
        ⟨rows ++ [row], [], [], .start⟩ := by
      by_cases none : row = []
      · rw [none, Csv.row, Csv.fields, List.nil_append, List.foldl_cons]
        have returned : step delimiter ⟨rows, [], [], .start⟩ '\r' =
            ⟨rows ++ [[]], [], [], .afterReturn⟩ := by
          simp [step, first, outside, endRow, fields, isBlank, Ne.symm back]
        rw [returned]
        rfl
      · rw [foldl_row quote back row [] none (.inr (told row List.mem_cons_self)),
          List.nil_append]
    rw [Csv.table, List.flatMap_cons, List.foldl_append, here, ← Csv.table,
      ih fun row h => told row (List.mem_cons_of_mem _ h), List.append_assoc,
      List.singleton_append]

end Row

end Reader

/-- A table is read as it was written, if no row of it has one empty field and no more. -/
theorem read_table {delimiter : Char} (quote : delimiter ≠ '"') (back : delimiter ≠ '\r')
    {rows : List (List (List Char))} (told : ∀ row ∈ rows, row ≠ [[]]) :
    read delimiter (table delimiter rows) = rows := by
  rw [read, Reader.fresh, Reader.foldl_table quote back rows told, List.nil_append]
  rfl

end Lineage.Csv
