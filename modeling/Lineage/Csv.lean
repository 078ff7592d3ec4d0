/-
# Delimited rows

A table is written one row a line, fields apart by a delimiter, and each row
ends with a carriage return and a line feed. A field that holds the delimiter, a
double quote or one of the characters that end a row stands between double
quotes, and its own double quotes are written twice.

Key definitions: `Csv.needsQuotes`, `Csv.field`, `Csv.row`, `Csv.table`.
-/
namespace Lineage.Csv

/-- Whether a field cannot stand without quotes. -/
def needsQuotes (delimiter : Char) (text : List Char) : Bool :=
  text.any fun c => c == delimiter || c == '"' || c == '\r' || c == '\n'

/-- A text with every double quote written twice. -/
def doubleQuotes (text : List Char) : List Char :=
  text.flatMap fun c => if c = '"' then ['"', '"'] else [c]

/-- A field as it is written. -/
def field (delimiter : Char) (text : List Char) : List Char :=
  if needsQuotes delimiter text then '"' :: (doubleQuotes text ++ ['"']) else text

/-- The fields of a row, the delimiter between them. -/
def fields (delimiter : Char) : List (List Char) → List Char
  | [] => []
  | [text] => field delimiter text
  | text :: texts => field delimiter text ++ delimiter :: fields delimiter texts

/-- A row with its end. -/
def row (delimiter : Char) (texts : List (List Char)) : List Char :=
  fields delimiter texts ++ ['\r', '\n']

/-- The rows of a table. -/
def table (delimiter : Char) (rows : List (List (List Char))) : List Char :=
  rows.flatMap (row delimiter)

end Lineage.Csv
