/-
# Lines of a text

A text is a list of characters, and so is each of its lines. A line ends with
a terminator, which is a line feed, a carriage return, or a carriage return
followed by a line feed; the last line may go without one. `splitLines` cuts a
text into its lines and keeps the terminators, so nothing is lost
(`flatten_splitLines`) and no line is empty (`ne_nil_of_mem_splitLines`);
`stripEnd` takes the terminators off the end.

Key definitions: `Line`, `isTerminator`, `splitLines`, `stripEnd`, `lineStart`.
-/
namespace Lineage.Text

/-- A line of a text, together with the terminator that ends it. -/
abbrev Line := List Char

/-- Line feed and carriage return end a line. -/
def isTerminator (c : Char) : Bool :=
  c == '\n' || c == '\r'

/-- Whether a text is one terminator character and nothing else. -/
def isTerminatorText : List Char → Bool
  | [c] => isTerminator c
  | _ => false

/-- The lines of a text, terminators kept: a carriage return and the line feed
after it end one line together, and what follows the last terminator is a line
if it is not empty. -/
def splitLines : List Char → List Line
  | [] => []
  | '\r' :: '\n' :: rest => ['\r', '\n'] :: splitLines rest
  | c :: rest =>
    if isTerminator c then [c] :: splitLines rest
    else
      match splitLines rest with
      | [] => [[c]]
      | line :: lines => (c :: line) :: lines

/-- A text without the terminator characters at its end. -/
def stripEnd (text : List Char) : List Char :=
  (text.reverse.dropWhile isTerminator).reverse

/-- How many characters come before line number `k`, counted from zero. -/
def lineStart (lines : List Line) (k : Nat) : Nat :=
  (lines.take k).flatten.length

/-- Splitting loses nothing. -/
theorem flatten_splitLines (text : List Char) : (splitLines text).flatten = text := by
  fun_induction splitLines text with
  | case1 => rfl
  | case2 rest ih => simp [ih]
  | case3 c rest _ _ ih => simp [ih]
  | case4 c rest _ _ h ih => rw [h] at ih; simp_all
  | case5 c rest _ _ line lines h ih => rw [h] at ih; simp_all

/-- Every line holds a character. -/
theorem ne_nil_of_mem_splitLines {text : List Char} {line : Line}
    (h : line ∈ splitLines text) : line ≠ [] := by
  fun_induction splitLines text generalizing line with
  | case1 => simp at h
  | case2 rest ih =>
    rcases List.mem_cons.1 h with rfl | h
    · simp
    · exact ih h
  | case3 c rest _ _ ih =>
    rcases List.mem_cons.1 h with rfl | h
    · simp
    · exact ih h
  | case4 => simp_all
  | case5 c rest _ _ first lines hs ih =>
    rcases List.mem_cons.1 h with rfl | h
    · simp
    · exact ih (by simp [hs, h])

end Lineage.Text
