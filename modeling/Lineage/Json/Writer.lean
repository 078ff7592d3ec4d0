/-
# Writing JSON within limits

A text is written piece by piece, and the writer stops at the first piece that goes beyond
its limits: an array or object inside of too many others, or a whole number of too many
digits. What was written before is left. An item of an array is written together with what
stands in front of it, so in front of a number that is too long even the comma is missing.

Key definitions: `Written`, `Json.write`.
-/
import Lineage.Fault
import Lineage.Json.Printer

namespace Lineage

/-- What is written of a text, and the fault that stops the writer if it does not come to
the end. -/
structure Written where
  text : List Char
  stop : Option Fault

namespace Written

/-- A text to its end. -/
def whole (text : List Char) : Written := ⟨text, none⟩

/-- Nothing, since the writer is stopped. -/
def stopped (fault : Fault) : Written := ⟨[], some fault⟩

/-- A text, and after it what is written next. -/
def after (text : List Char) (next : Written) : Written := ⟨text ++ next.text, next.stop⟩

end Written

namespace Json

/-- What is written of an array or object, which stands inside of `level` others. -/
def enter (limits : Limits) (style : Style) (level : Nat) (inside : Written) : Written :=
  if limits.nesting ≤ level then .stopped (.tooDeep style) else inside

mutual

/-- What is written of a value that stands inside of `level` others, with what is `held` in
front of it, and of what follows it. -/
def writeAt (limits : Limits) (style : Style) (level : Nat) (held : List Char) :
    Json → Written → Written
  | .null, rest => .after (held ++ printAt style level .null []) rest
  | .bool b, rest => .after (held ++ printAt style level (.bool b) []) rest
  | .int i, rest =>
    if limits.digits < (Json.int i).digits then .stopped (.numberTooLong limits.digits)
    else .after (held ++ printAt style level (.int i) []) rest
  | .float d, rest => .after (held ++ printAt style level (.float d) []) rest
  | .str s, rest => .after (held ++ printAt style level (.str s) []) rest
  | .arr [], rest => .after held (enter limits style level (.after ['[', ']'] rest))
  | .arr (v :: vs), rest =>
    .after held (enter limits style level
      (writeAt limits style (level + 1) ('[' :: style.margin (level + 1)) v
        (writeItems limits style (level + 1) vs (.after (style.margin level ++ [']']) rest))))
  | .obj [], rest => .after held (enter limits style level (.after ['\x7b', '\x7d'] rest))
  | .obj ((name, v) :: ms), rest =>
    .after held (enter limits style level
      (.after ('\x7b' :: style.margin (level + 1))
        (.after (printString style.asciiOnly name [':', ' '])
          (writeAt limits style (level + 1) [] v
            (writeMembers limits style (level + 1) ms
              (.after (style.margin level ++ ['\x7d']) rest))))))

/-- What is written of the items after the first one, and of what follows them. -/
def writeItems (limits : Limits) (style : Style) (level : Nat) : List Json → Written → Written
  | [], rest => rest
  | v :: vs, rest =>
    writeAt limits style level (style.separator level) v (writeItems limits style level vs rest)

/-- What is written of the members after the first one, and of what follows them. -/
def writeMembers (limits : Limits) (style : Style) (level : Nat) :
    List (String × Json) → Written → Written
  | [], rest => rest
  | (name, v) :: ms, rest =>
    .after (style.separator level)
      (.after (printString style.asciiOnly name [':', ' '])
        (writeAt limits style level [] v (writeMembers limits style level ms rest)))

end

/-- What is written of the text of a value. -/
def write (limits : Limits) (style : Style) (v : Json) : Written :=
  writeAt limits style 0 [] v (.whole [])

end Json
end Lineage
