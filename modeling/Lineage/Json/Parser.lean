/-
# Reading JSON

A text is read from left to right, and the first thing that does not fit ends
the reading with a complaint and the place it is about. Of two members of one
name the later value counts, at the place of the earlier one. A number is whole
unless it has a fraction or an exponent; digits that could not belong to the
number are left for what follows it. A whole number that has more digits than a
number may have is refused, and so is a bracket inside as many open ones as there
may be; of these two no place is told.

Inside the reader a place is the number of characters still to come, so that no
function has to carry the text it started from. The reader for values is given
the number of nested readings it may start; the length of the text is always
enough, since each reading takes a character.

Key definitions: `Json.Complaint`, `Json.Problem`, `Json.parse`.
-/
import Lineage.Json.Basic
import Lineage.Text.Hex
import Lineage.Text.Numeral

namespace Lineage.Json

/-- A value that holds others. -/
inductive Container where
  | array
  | object
  deriving DecidableEq, Repr

/-- A container in messages. -/
def Container.word : Container → String
  | .array => "array"
  | .object => "object"

/-- What is wrong with a text that should be JSON. -/
inductive Complaint where
  | byteOrderMark
  | valueExpected
  | nameExpected
  | colonExpected
  | commaExpected
  | openString
  | controlCharacter
  | unknownEscape
  | badCodePoint
  | textAfterValue
  | numberTooLong (digits limit : Nat)
  | tooDeep (container : Container)
  deriving DecidableEq, Repr

/-- A complaint about the place before the last `left` characters of the text. -/
structure Trouble where
  complaint : Complaint
  left : Nat
  deriving DecidableEq, Repr

/-- A complaint and the offset it is about. -/
structure Problem where
  complaint : Complaint
  offset : Nat
  line : Nat
  column : Nat
  deriving DecidableEq, Repr

/-- The blank characters of JSON. -/
def isSpace (c : Char) : Bool :=
  c == ' ' || c == '\t' || c == '\n' || c == '\r'

/-- The text from the first character on that is not blank. -/
def skipSpace (text : List Char) : List Char :=
  text.dropWhile isSpace

/-- The character for an escape letter. -/
def escaped? (c : Char) : Option Char :=
  match c with
  | '"' => some '"'
  | '\\' => some '\\'
  | '/' => some '/'
  | 'b' => some '\x08'
  | 'f' => some '\x0c'
  | 'n' => some '\n'
  | 'r' => some '\r'
  | 't' => some '\t'
  | _ => none

/-- The characters of code points in which a high and a low surrogate make one
character. A surrogate that lacks its partner becomes the replacement character. -/
def joinSurrogates : List Nat → List Char
  | [] => []
  | [n] => [if 0xD800 ≤ n ∧ n ≤ 0xDFFF then '\ufffd' else Char.ofNat n]
  | n :: m :: rest =>
    if 0xD800 ≤ n ∧ n ≤ 0xDBFF ∧ 0xDC00 ≤ m ∧ m ≤ 0xDFFF then
      Char.ofNat (0x10000 + (n - 0xD800) * 0x400 + (m - 0xDC00)) :: joinSurrogates rest
    else
      (if 0xD800 ≤ n ∧ n ≤ 0xDFFF then '\ufffd' else Char.ofNat n) :: joinSurrogates (m :: rest)

/-- The rest of a string after its opening quote, with which the text `opened`
starts: its code points, and the text after the closing quote. -/
def readPoints (opened : List Char) : List Char → Except Trouble (List Nat × List Char)
  | [] => .error ⟨.openString, opened.length⟩
  | '"' :: rest => .ok ([], rest)
  | '\\' :: rest =>
    match rest with
    | [] => .error ⟨.openString, opened.length⟩
    | 'u' :: hex =>
      match hex with
      | a :: b :: c :: d :: next :: after =>
        match Text.hexNumber 0 [a, b, c, d] with
        | some n => (readPoints opened (next :: after)).map fun (ns, r) => (n :: ns, r)
        | none => .error ⟨.badCodePoint, hex.length + 1⟩
      | _ => .error ⟨.badCodePoint, hex.length + 1⟩
    | letter :: rest =>
      match escaped? letter with
      | some c => (readPoints opened rest).map fun (ns, r) => (c.toNat :: ns, r)
      | none => .error ⟨.unknownEscape, rest.length + 2⟩
  | c :: rest =>
    if c.toNat < 0x20 then .error ⟨.controlCharacter, rest.length + 1⟩
    else (readPoints opened rest).map fun (ns, r) => (c.toNat :: ns, r)

/-- The rest of a string after its opening quote, and the text after it. -/
def readString (opened text : List Char) : Except Trouble (String × List Char) :=
  (readPoints opened text).map fun (ns, r) => (String.ofList (joinSurrogates ns), r)

/-- The digits at the start of a text, and what comes after them. -/
def takeDigits (text : List Char) : List Char × List Char :=
  (text.takeWhile Char.isDigit, text.dropWhile Char.isDigit)

/-- The whole part of a number, which has no digits after a leading zero. -/
def takeWhole : List Char → List Char × List Char
  | '0' :: rest => (['0'], rest)
  | text => takeDigits text

/-- The digits of a fraction, if there is one. -/
def takeFraction : List Char → List Char × List Char
  | '.' :: rest =>
    match takeDigits rest with
    | ([], _) => ([], '.' :: rest)
    | taken => taken
  | text => ([], text)

/-- The exponent, if there is one. -/
def takeExponent : List Char → Option Int × List Char
  | e :: rest =>
    if e = 'e' ∨ e = 'E' then
      let (negative, unsigned) : Bool × List Char :=
        match rest with
        | '-' :: r => (true, r)
        | '+' :: r => (false, r)
        | r => (false, r)
      match takeDigits unsigned with
      | ([], _) => (none, e :: rest)
      | (digits, after) =>
        let n : Int := Nat.ofDigitChars 10 digits 0
        (some (if negative then -n else n), after)
    else (none, e :: rest)
  | [] => (none, [])

/-- A number at the start of a text; a whole one has no more than `most` digits. -/
def readNumber (most : Nat) (text : List Char) : Except Trouble (Json × List Char) :=
  let (negative, unsigned) : Bool × List Char :=
    match text with
    | '-' :: r => (true, r)
    | r => (false, r)
  match takeWhole unsigned with
  | ([], _) => .error ⟨.valueExpected, text.length⟩
  | (whole, rest) =>
    let (fraction, rest) := takeFraction rest
    match fraction, takeExponent rest with
    | [], (none, rest) =>
      if most < whole.length then .error ⟨.numberTooLong whole.length most, text.length⟩
      else
        let n : Int := Nat.ofDigitChars 10 whole 0
        .ok (.int (if negative then -n else n), rest)
    | _, (exponent, rest) =>
      let digits := Nat.ofDigitChars 10 (whole ++ fraction) 0
      .ok (.float (Double.ofDecimal negative digits (exponent.getD 0 - fraction.length)), rest)

/-- The members of an object after one more is added. -/
def setMember (name : String) (v : Json) : List (String × Json) → List (String × Json)
  | [] => [(name, v)]
  | (n, w) :: ms => if n = name then (n, v) :: ms else (n, w) :: setMember name v ms

mutual

/-- A value at the start of a text, within a number of nested readings, where
`room` more brackets may be open at a time and a whole number has no more than
`most` digits. -/
def readValue (most : Nat) : Nat → (room : Nat) → List Char → Except Trouble (Json × List Char)
  | 0, _, text => .error ⟨.valueExpected, text.length⟩
  | n + 1, room, text =>
    match text with
    | '"' :: rest => (readString text rest).map fun (s, r) => (.str s, r)
    | '[' :: rest =>
      match room with
      | 0 => .error ⟨.tooDeep .array, text.length⟩
      | room + 1 =>
        match skipSpace rest with
        | ']' :: after => .ok (.arr [], after)
        | items => (readItems most n room items).map fun (vs, r) => (.arr vs, r)
    | '\x7b' :: rest =>
      match room with
      | 0 => .error ⟨.tooDeep .object, text.length⟩
      | room + 1 =>
        match skipSpace rest with
        | '\x7d' :: after => .ok (.obj [], after)
        | members => (readMembers most n room [] members).map fun (ms, r) => (.obj ms, r)
    | 'n' :: 'u' :: 'l' :: 'l' :: rest => .ok (.null, rest)
    | 't' :: 'r' :: 'u' :: 'e' :: rest => .ok (.bool true, rest)
    | 'f' :: 'a' :: 'l' :: 's' :: 'e' :: rest => .ok (.bool false, rest)
    | _ => readNumber most text

/-- The items of an array up to its end. -/
def readItems (most : Nat) : Nat → (room : Nat) → List Char →
    Except Trouble (List Json × List Char)
  | 0, _, text => .error ⟨.valueExpected, text.length⟩
  | n + 1, room, text => do
    let (v, rest) ← readValue most n room text
    match skipSpace rest with
    | ']' :: after => .ok ([v], after)
    | ',' :: more => (readItems most n room (skipSpace more)).map fun (vs, r) => (v :: vs, r)
    | other => .error ⟨.commaExpected, other.length⟩

/-- The members of an object up to its end, after those already read. -/
def readMembers (most : Nat) : Nat → (room : Nat) → List (String × Json) → List Char →
    Except Trouble (List (String × Json) × List Char)
  | 0, _, _, text => .error ⟨.nameExpected, text.length⟩
  | n + 1, room, before, text => do
    match text with
    | '"' :: quoted =>
      let (name, rest) ← readString text quoted
      match skipSpace rest with
      | ':' :: afterColon =>
        let (v, rest) ← readValue most n room (skipSpace afterColon)
        let members := setMember name v before
        match skipSpace rest with
        | '\x7d' :: after => .ok (members, after)
        | ',' :: more => readMembers most n room members (skipSpace more)
        | other => .error ⟨.commaExpected, other.length⟩
      | other => .error ⟨.colonExpected, other.length⟩
    | other => .error ⟨.nameExpected, other.length⟩

end

/-- The one value of a text within limits, with blanks around it. -/
def readText (limits : Limits) (text : List Char) : Except Trouble Json := do
  match text with
  | '\ufeff' :: _ => .error ⟨.byteOrderMark, text.length⟩
  | _ =>
    let (v, rest) ← readValue limits.digits (text.length + 1) limits.nesting (skipSpace text)
    match skipSpace rest with
    | [] => .ok v
    | other => .error ⟨.textAfterValue, other.length⟩

/-- A complaint with its place in a text: lines and columns count from one, and
only line feeds end a line. -/
def Trouble.locate (text : List Char) (t : Trouble) : Problem :=
  let before := text.take (text.length - t.left)
  ⟨t.complaint, before.length, before.count '\n' + 1,
    (before.reverse.takeWhile (· != '\n')).length + 1⟩

/-- The value of a JSON text within limits. -/
def parse (limits : Limits) (text : List Char) : Except Problem Json :=
  (readText limits text).mapError (Trouble.locate text)

/-- A complaint in words. -/
def Complaint.message : Complaint → String
  | .byteOrderMark => "Unexpected UTF-8 BOM (decode using utf-8-sig)"
  | .valueExpected => "Expecting value"
  | .nameExpected => "Expecting property name enclosed in double quotes"
  | .colonExpected => "Expecting ':' delimiter"
  | .commaExpected => "Expecting ',' delimiter"
  | .openString => "Unterminated string starting at"
  | .controlCharacter => "Invalid control character at"
  | .unknownEscape => "Invalid \\escape"
  | .badCodePoint => "Invalid \\uXXXX escape"
  | .textAfterValue => "Extra data"
  | .numberTooLong digits limit =>
    s!"Exceeds the limit ({limit} digits) for integer string conversion: " ++
      s!"value has {digits} digits; use sys.set_int_max_str_digits() to increase the limit"
  | .tooDeep container =>
    s!"maximum recursion depth exceeded while decoding a JSON {container.word} " ++
      "from a unicode string"

/-- A problem in words. -/
def Problem.message (p : Problem) : String :=
  match p.complaint with
  | .numberTooLong .. | .tooDeep _ => p.complaint.message
  | _ => s!"{p.complaint.message}: line {p.line} column {p.column} (char {p.offset})"

end Lineage.Json
