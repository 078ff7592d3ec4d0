/-
# Values are read as they were printed

A value without floats whose objects have members of distinct names (`Json.isPlain`) is read
from what is printed of it, in every style, within all limits that are not below what it needs
(`parse_print`). An item is printed in front of a text that starts with blanks, a comma or a
closing bracket, so that no number runs on into it, and reading the item leaves just that text.

What a value puts in front of a text is made up of what its parts put (`Puts.comp`). It starts
neither with a blank nor with a closing bracket, which tells a container with items from an empty
one, and it holds no carriage return (`exists_printAt`). Each reading takes a character, so the
length of the text bounds the number of nested readings.

Key definitions: `Json.isPlain`, `Json.Puts`, `Json.Readable`.
Key theorems: `Json.Puts.comp`, `Json.exists_printAt`, `Json.readValue_printAt`,
`Json.parse_print`.
-/
import Lineage.Proofs.Json.Scalars

namespace Lineage
namespace Json

/-! ### Plain values -/

mutual

/-- Whether a value holds no floats and no object with two members of one name. -/
def isPlain : Json → Bool
  | .float _ => false
  | .arr vs => arePlain vs
  | .obj ms => decide (ms.map Prod.fst).Nodup && holdPlain ms
  | _ => true

/-- Whether all items are plain. -/
def arePlain : List Json → Bool
  | [] => true
  | v :: vs => isPlain v && arePlain vs

/-- Whether all members are plain. -/
def holdPlain : List (String × Json) → Bool
  | [] => true
  | (_, v) :: ms => isPlain v && holdPlain ms

end

/-! ### Blanks -/

theorem isSpace_eq_false {c : Char} :
    isSpace c = false ↔ c ≠ ' ' ∧ c ≠ '\t' ∧ c ≠ '\n' ∧ c ≠ '\r' := by
  simp [isSpace, and_assoc]

theorem skipSpace_append {blanks : List Char} (h : ∀ c ∈ blanks, isSpace c = true)
    (text : List Char) : skipSpace (blanks ++ text) = skipSpace text :=
  List.dropWhile_append_of_pos h

theorem skipSpace_blank (text : List Char) : skipSpace (' ' :: text) = skipSpace text := rfl

theorem skipSpace_cons {c : Char} (h : isSpace c = false) (text : List Char) :
    skipSpace (c :: text) = c :: text :=
  List.dropWhile_cons_of_neg (by simp [h])

/-- Blanks between parts of a text, on one line or over two. -/
structure Blanks (blanks : List Char) : Prop where
  spaces : ∀ c ∈ blanks, isSpace c = true
  noReturn : '\r' ∉ blanks

theorem Blanks.replicate (n : Nat) : Blanks (List.replicate n ' ') where
  spaces c hc := by rw [List.eq_of_mem_replicate hc]; rfl
  noReturn h := absurd (List.eq_of_mem_replicate h) (by decide)

theorem Blanks.newline {blanks : List Char} (h : Blanks blanks) : Blanks ('\n' :: blanks) where
  spaces := List.forall_mem_cons.mpr ⟨rfl, h.spaces⟩
  noReturn := List.not_mem_cons_of_ne_of_not_mem (by decide) h.noReturn

theorem blanks_margin (style : Style) (level : Nat) : Blanks (style.margin level) := by
  unfold Style.margin
  split
  · exact .replicate 0
  · exact (Blanks.replicate _).newline

theorem exists_separator (style : Style) (level : Nat) :
    ∃ blanks, style.separator level = ',' :: blanks ∧ Blanks blanks := by
  unfold Style.separator
  split
  · exact ⟨_, rfl, .replicate 1⟩
  · exact ⟨_, rfl, (Blanks.replicate _).newline⟩

/-! ### What is printed -/

/-- What is put in front of any text: the characters of `body`, none of which is a carriage
return. -/
structure Puts (write : List Char → List Char) (body : List Char) : Prop where
  noReturn : '\r' ∉ body
  write_eq : ∀ rest, write rest = body ++ rest

theorem Puts.char (c : Char) (h : '\r' ≠ c) : Puts (fun rest => c :: rest) [c] where
  noReturn := by simpa using h
  write_eq _ := rfl

/-- What is put in front of what has been put before. -/
theorem Puts.comp {write before : List Char → List Char} {body more : List Char}
    (h : Puts write body) (h' : Puts before more) :
    Puts (fun rest => write (before rest)) (body ++ more) where
  noReturn := List.not_mem_append h.noReturn h'.noReturn
  write_eq rest := by rw [h'.write_eq, h.write_eq, List.append_assoc]

theorem Puts.length_eq {write : List Char → List Char} {body : List Char} (h : Puts write body)
    (rest : List Char) : (write rest).length = body.length + rest.length := by
  rw [h.write_eq, List.length_append]

theorem Blanks.puts {blanks : List Char} (h : Blanks blanks) : Puts (blanks ++ ·) blanks :=
  ⟨h.noReturn, fun _ => rfl⟩

theorem not_mem_hexDigits (width n : Nat) : '\r' ∉ Text.hexDigits width n := by
  induction width generalizing n with
  | zero => exact List.not_mem_nil
  | succ width ih =>
    have digits : ∀ d < 16, '\r' ≠ Nat.digitChar d := by decide
    have last := digits _ (Nat.mod_lt n (by omega))
    simp [Text.hexDigits, ih, last]

theorem not_mem_escapePoint (n : Nat) : '\r' ∉ escapePoint n := by
  unfold escapePoint escapeUnit
  split <;> simp [not_mem_hexDigits]

theorem not_mem_printChar (asciiOnly : Bool) (c : Char) : '\r' ∉ printChar asciiOnly c := by
  obtain ⟨letter, printed, -, -, visible, -⟩ | ⟨printed, -⟩ | ⟨printed, visible, -⟩ :=
    printChar_cases asciiOnly c
  · simp [printed, visible.symm]
  · rw [printed]
    exact not_mem_escapePoint c.toNat
  · rw [printed, List.mem_singleton]
    rintro rfl
    exact absurd visible (by decide)

theorem puts_separator (style : Style) (level : Nat) :
    Puts (style.separator level ++ ·) (style.separator level) := by
  obtain ⟨blanks, comma, between⟩ := exists_separator style level
  rw [comma]
  exact (Puts.char ',' (by decide)).comp between.puts

/-- The characters of a string up to its closing quote. -/
def quoted (asciiOnly : Bool) (s : String) : List Char :=
  s.toList.flatMap (printChar asciiOnly) ++ ['"']

theorem puts_printString (asciiOnly : Bool) (s : String) :
    Puts (printString asciiOnly s) ('"' :: quoted asciiOnly s) where
  noReturn := by simp [quoted, not_mem_printChar]
  write_eq rest := by simp [printString, printChars_eq, quoted]

theorem puts_name (asciiOnly : Bool) (name : String) :
    Puts (fun rest => printString asciiOnly name (':' :: ' ' :: rest))
      ('"' :: quoted asciiOnly name ++ [':', ' ']) :=
  (puts_printString asciiOnly name).comp
    ((Puts.char ':' (by decide)).comp (.char ' ' (by decide)))

theorem exists_decimal (i : Int) : ∃ c more, Text.decimal i = c :: more ∧
    (c = '-' ∨ c.isDigit = true) ∧ ∀ d ∈ more, d.isDigit = true := by
  have digits : ∀ n : Nat, ∀ d ∈ Nat.toDigits 10 n, d.isDigit = true :=
    fun n d hd => Nat.isDigit_of_mem_toDigits (by omega) (by omega) hd
  cases i with
  | ofNat n =>
    obtain ⟨c, more, split, digit⟩ := Text.exists_toDigits n
    exact ⟨c, more, split, .inr digit, fun d hd => digits n d (by simp [split, hd])⟩
  | negSucc n => exact ⟨'-', _, rfl, .inl rfl, digits (n + 1)⟩

mutual

/-- A plain value starts with what is neither a blank nor a closing bracket nor a mark of the
byte order. -/
theorem exists_printAt (style : Style) (level : Nat) : ∀ v : Json, v.isPlain = true →
    ∃ c more, Puts (printAt style level v) (c :: more) ∧
      isSpace c = false ∧ c ≠ ']' ∧ c ≠ '\ufeff'
  | .null, _ => ⟨'n', ['u', 'l', 'l'], ⟨by decide, fun _ => rfl⟩, by decide⟩
  | .bool true, _ => ⟨'t', ['r', 'u', 'e'], ⟨by decide, fun _ => rfl⟩, by decide⟩
  | .bool false, _ => ⟨'f', ['a', 'l', 's', 'e'], ⟨by decide, fun _ => rfl⟩, by decide⟩
  | .int i, _ => by
    obtain ⟨c, more, split, start, digits⟩ := exists_decimal i
    have other (d : Char) (minus : d ≠ '-') (digit : d.isDigit = false) : c ≠ d := by
      rintro rfl
      exact start.elim minus fun h => by simp [digit] at h
    refine ⟨c, more, ⟨?_, fun rest => by rw [printAt, split]⟩, ?_, other _ (by decide) rfl,
      other _ (by decide) rfl⟩
    · refine List.not_mem_cons_of_ne_of_not_mem (other _ (by decide) rfl).symm fun h => ?_
      exact absurd (digits _ h) (by decide)
    · rw [isSpace_eq_false]
      exact ⟨other _ (by decide) rfl, other _ (by decide) rfl, other _ (by decide) rfl,
        other _ (by decide) rfl⟩
  | .str s, _ => ⟨'"', _, puts_printString style.asciiOnly s, by decide⟩
  | .arr [], _ => ⟨'[', [']'], ⟨by decide, fun _ => rfl⟩, by decide⟩
  | .arr (v :: vs), plain => by
    obtain ⟨first, others⟩ := Bool.and_eq_true_iff.mp plain
    obtain ⟨c, more, value, -⟩ := exists_printAt style (level + 1) v first
    obtain ⟨body, items⟩ := exists_printItems style (level + 1) vs others
    have inner := (blanks_margin style (level + 1)).puts
    have outer := (blanks_margin style level).puts
    exact ⟨'[', _, (Puts.char '[' (by decide)).comp (inner.comp (value.comp (items.comp
      (outer.comp (.char ']' (by decide)))))), by decide⟩
  | .obj [], _ => ⟨'\x7b', ['\x7d'], ⟨by decide, fun _ => rfl⟩, by decide⟩
  | .obj ((name, v) :: ms), plain => by
    obtain ⟨first, others⟩ := Bool.and_eq_true_iff.mp (Bool.and_eq_true_iff.mp plain).2
    obtain ⟨c, more, value, -⟩ := exists_printAt style (level + 1) v first
    obtain ⟨body, members⟩ := exists_printMembers style (level + 1) ms others
    have inner := (blanks_margin style (level + 1)).puts
    have outer := (blanks_margin style level).puts
    exact ⟨'\x7b', _, (Puts.char '\x7b' (by decide)).comp (inner.comp
      ((puts_name style.asciiOnly name).comp (value.comp (members.comp
        (outer.comp (.char '\x7d' (by decide))))))), by decide⟩

theorem exists_printItems (style : Style) (level : Nat) : ∀ vs : List Json,
    arePlain vs = true → ∃ body, Puts (printItems style level vs) body
  | [], _ => ⟨[], List.not_mem_nil, fun _ => rfl⟩
  | v :: vs, plain => by
    obtain ⟨first, others⟩ := Bool.and_eq_true_iff.mp plain
    obtain ⟨c, more, value, -⟩ := exists_printAt style level v first
    obtain ⟨body, items⟩ := exists_printItems style level vs others
    exact ⟨_, (puts_separator style level).comp (value.comp items)⟩

theorem exists_printMembers (style : Style) (level : Nat) : ∀ ms : List (String × Json),
    holdPlain ms = true → ∃ body, Puts (printMembers style level ms) body
  | [], _ => ⟨[], List.not_mem_nil, fun _ => rfl⟩
  | (name, v) :: ms, plain => by
    obtain ⟨first, others⟩ := Bool.and_eq_true_iff.mp plain
    obtain ⟨c, more, value, -⟩ := exists_printAt style level v first
    obtain ⟨body, members⟩ := exists_printMembers style level ms others
    exact ⟨_, (puts_separator style level).comp ((puts_name style.asciiOnly name).comp
      (value.comp members))⟩

end

theorem not_mem_print (style : Style) {v : Json} (plain : v.isPlain = true) :
    '\r' ∉ v.print style := by
  obtain ⟨c, more, value, -⟩ := exists_printAt style 0 v plain
  rw [print, value.write_eq, List.append_nil]
  exact value.noReturn

section Start

variable {v : Json} (plain : v.isPlain = true) (style : Style) (level : Nat)
include plain

theorem length_lt_printAt (rest : List Char) :
    rest.length < (printAt style level v rest).length := by
  obtain ⟨c, more, value, -⟩ := exists_printAt style level v plain
  rw [value.length_eq, List.length_cons]
  omega

theorem skipSpace_printAt (rest : List Char) :
    skipSpace (printAt style level v rest) = printAt style level v rest := by
  obtain ⟨c, more, value, space, -⟩ := exists_printAt style level v plain
  rw [value.write_eq, List.cons_append, skipSpace_cons space]

theorem printAt_ne {c : Char} (h : c = ']' ∨ c = '\ufeff') (rest after : List Char) :
    printAt style level v rest ≠ c :: after := by
  obtain ⟨d, more, value, -, close, mark⟩ := exists_printAt style level v plain
  rw [value.write_eq, List.cons_append]
  obtain rfl | rfl := h
  · exact fun same => close (List.cons.inj same).1
  · exact fun same => mark (List.cons.inj same).1

end Start

theorem length_lt_printItems (style : Style) (level : Nat) {vs : List Json}
    (plain : arePlain vs = true) (margin : List Char) (c : Char) (rest : List Char) :
    rest.length < (printItems style level vs (margin ++ c :: rest)).length := by
  obtain ⟨body, items⟩ := exists_printItems style level vs plain
  rw [items.length_eq, List.length_append, List.length_cons]
  omega

theorem length_lt_printMembers (style : Style) (level : Nat) {ms : List (String × Json)}
    (plain : holdPlain ms = true) (margin : List Char) (c : Char) (rest : List Char) :
    rest.length < (printMembers style level ms (margin ++ c :: rest)).length := by
  obtain ⟨body, members⟩ := exists_printMembers style level ms plain
  rw [members.length_eq, List.length_append, List.length_cons]
  omega

theorem length_lt_printName (asciiOnly : Bool) (name : String) (rest : List Char) :
    rest.length < (printString asciiOnly name (':' :: ' ' :: rest)).length := by
  rw [(puts_name asciiOnly name).length_eq, List.length_append, List.length_cons]
  omega

/-! ### Reading what was printed -/

/-- A value that a reader with room for some brackets and digits takes as it was printed. -/
structure Readable (most room : Nat) (v : Json) : Prop where
  plain : v.isPlain = true
  depth_le : v.depth ≤ room
  digits_le : v.digits ≤ most

section Parts

variable {most room : Nat}

theorem Readable.of_items {v : Json} {vs : List Json}
    (h : Readable most (room + 1) (.arr (v :: vs))) :
    Readable most room v ∧ Readable most (room + 1) (.arr vs) := by
  obtain ⟨plain, depth, digits⟩ := h
  simp only [isPlain, arePlain, Bool.and_eq_true] at plain
  simp only [Json.depth, depthOfItems, Json.digits, digitsOfItems] at depth digits
  refine ⟨⟨plain.1, by omega, by omega⟩, ⟨plain.2, ?_, ?_⟩⟩ <;>
    simp only [Json.depth, Json.digits] <;> omega

theorem Readable.of_members {name : String} {v : Json} {ms : List (String × Json)}
    (h : Readable most (room + 1) (.obj ((name, v) :: ms))) :
    Readable most room v ∧ Readable most (room + 1) (.obj ms) := by
  obtain ⟨plain, depth, digits⟩ := h
  simp only [isPlain, holdPlain, Bool.and_eq_true, decide_eq_true_eq, List.map_cons,
    List.nodup_cons] at plain
  simp only [Json.depth, depthOfMembers, Json.digits, digitsOfMembers] at depth digits
  refine ⟨⟨plain.2.1, by omega, by omega⟩, ⟨?_, ?_, ?_⟩⟩
  · simp only [isPlain, plain.1.2, plain.2.2, decide_true, Bool.and_self]
  · simp only [Json.depth]
    omega
  · simp only [Json.digits]
    omega

theorem holdPlain_of {ms : List (String × Json)} (h : (Json.obj ms).isPlain = true) :
    holdPlain ms = true :=
  (Bool.and_eq_true_iff.mp h).2

theorem Readable.nodup {ms : List (String × Json)} (h : Readable most room (.obj ms)) :
    (ms.map Prod.fst).Nodup := by
  simpa using (Bool.and_eq_true_iff.mp h.plain).1

theorem Readable.exists_room {v : Json} (h : Readable most room v) (container : 0 < v.depth) :
    ∃ less, room = less + 1 :=
  ⟨room - 1, by have := h.depth_le; omega⟩

end Parts

theorem setMember_of_not_mem {name : String} {v : Json} {ms : List (String × Json)}
    (h : name ∉ ms.map Prod.fst) : setMember name v ms = ms ++ [(name, v)] := by
  induction ms with
  | nil => rfl
  | cons m ms ih =>
    simp only [List.map_cons, List.mem_cons, not_or] at h
    rw [setMember, if_neg (Ne.symm h.1), ih h.2, List.cons_append]

theorem endsNumber_blanks {blanks : List Char} (h : Blanks blanks) {c : Char}
    (hc : c.isDigit = false ∧ c ≠ '.' ∧ c ≠ 'e' ∧ c ≠ 'E') (rest : List Char) :
    EndsNumber (blanks ++ c :: rest) := by
  cases blanks with
  | nil => exact endsNumber_cons hc rest
  | cons b blanks =>
    have space := h.spaces b List.mem_cons_self
    simp only [isSpace, Bool.or_eq_true, beq_iff_eq] at space
    refine endsNumber_cons ?_ _
    rcases space with ((rfl | rfl) | rfl) | rfl <;> decide

section Following

variable {style : Style} {level : Nat} {margin rest : List Char}

theorem endsNumber_printItems (vs : List Json) (blank : Blanks margin) :
    EndsNumber (printItems style level vs (margin ++ ']' :: rest)) := by
  cases vs with
  | nil => exact endsNumber_blanks blank (by decide) rest
  | cons v vs =>
    obtain ⟨blanks, comma, -⟩ := exists_separator style level
    rw [printItems, comma]
    exact endsNumber_cons (by decide) _

theorem endsNumber_printMembers (ms : List (String × Json)) (blank : Blanks margin) :
    EndsNumber (printMembers style level ms (margin ++ '\x7d' :: rest)) := by
  cases ms with
  | nil => exact endsNumber_blanks blank (by decide) rest
  | cons m ms =>
    obtain ⟨blanks, comma, -⟩ := exists_separator style level
    rw [printMembers, comma]
    exact endsNumber_cons (by decide) _

end Following

theorem readValue_int {most n room : Nat} {i : Int} {rest : List Char} (hr : EndsNumber rest)
    (long : (Json.int i).digits ≤ most) :
    readValue most (n + 1) room (Text.decimal i ++ rest) = .ok (.int i, rest) := by
  obtain ⟨c, more, split, start, -⟩ := exists_decimal i
  have number := readNumber_decimal hr long
  rw [split, List.cons_append] at number ⊢
  have other (d : Char) (minus : d ≠ '-') (digit : d.isDigit = false) : c ≠ d := by
    rintro rfl
    exact start.elim minus fun h => by simp [digit] at h
  rw [readValue, number]
  all_goals
    intro _ same
    exact other _ (by decide) (by decide) (List.cons.inj same).1

theorem ok_bind {ε α β : Type} (x : α) (f : α → Except ε β) : (Except.ok x >>= f) = f x := rfl

-- Each reading starts the ones inside it with one less of `n`, which only has to be as large as
-- what is to be read of the text.
mutual

/-- A plain value is read as it was printed. -/
theorem readValue_printAt (most : Nat) (style : Style) :
    ∀ (v : Json) (n room level : Nat) (rest : List Char), Readable most room v →
      EndsNumber rest → (printAt style level v rest).length ≤ n + rest.length →
        readValue most n room (printAt style level v rest) = .ok (v, rest)
  | v, 0, _, level, rest, h, _, fuel => by
    have longer := length_lt_printAt h.plain style level rest
    omega
  | .null, _ + 1, _, _, _, _, _, _ => rfl
  | .bool true, _ + 1, _, _, _, _, _, _ => rfl
  | .bool false, _ + 1, _, _, _, _, _, _ => rfl
  | .int _, _ + 1, _, _, _, h, hr, _ => readValue_int hr h.digits_le
  | .str s, n + 1, _, _, rest, _, _, _ => by
    rw [printAt, printString, readValue, readString_printChars]
    rfl
  | .arr [], n + 1, room, _, _, h, _, _ => by
    obtain ⟨room, rfl⟩ := h.exists_room (Nat.succ_pos _)
    rfl
  | .arr (v :: vs), n + 1, room, level, rest, h, _, fuel => by
    obtain ⟨room, rfl⟩ := h.exists_room (Nat.succ_pos _)
    have inner := blanks_margin style (level + 1)
    have plain := h.of_items.1.plain
    rw [printAt] at fuel
    have items := readItems_printItems most style v vs n room (level + 1) (style.margin level) rest
      (blanks_margin style level) h
      (by simp only [List.length_cons, List.length_append] at fuel; omega)
    rw [printAt, readValue, skipSpace_append inner.spaces, skipSpace_printAt plain]
    split
    · next same => exact absurd same (printAt_ne plain style (level + 1) (.inl rfl) _ _)
    · rw [items]
      rfl
  | .obj [], n + 1, room, _, _, h, _, _ => by
    obtain ⟨room, rfl⟩ := h.exists_room (Nat.succ_pos _)
    rfl
  | .obj ((name, v) :: ms), n + 1, room, level, rest, h, _, fuel => by
    obtain ⟨room, rfl⟩ := h.exists_room (Nat.succ_pos _)
    have inner := blanks_margin style (level + 1)
    rw [printAt] at fuel
    have members := readMembers_printMembers most style name v ms n room (level + 1) []
      (style.margin level) rest (blanks_margin style level) h h.nodup
      (by simp only [List.length_cons, List.length_append] at fuel; omega)
    rw [printAt, readValue, skipSpace_append inner.spaces, printString, skipSpace_cons (by decide),
      ← printString]
    split
    · next same => exact absurd (List.cons.inj same).1 (by decide)
    · rw [members]
      rfl
termination_by _ n => n

theorem readItems_printItems (most : Nat) (style : Style) :
    ∀ (v : Json) (vs : List Json) (n room level : Nat) (margin rest : List Char),
      Blanks margin → Readable most (room + 1) (.arr (v :: vs)) →
      (printAt style level v (printItems style level vs (margin ++ ']' :: rest))).length ≤
        n + rest.length →
        readItems most n room
          (printAt style level v (printItems style level vs (margin ++ ']' :: rest))) =
            .ok (v :: vs, rest)
  | v, vs, 0, _, level, margin, rest, _, h, fuel => by
    obtain ⟨first, others⟩ := h.of_items
    have after := length_lt_printItems style level others.plain margin ']' rest
    have here := length_lt_printAt first.plain style level
      (printItems style level vs (margin ++ ']' :: rest))
    omega
  | v, vs, n + 1, room, level, margin, rest, blank, h, fuel => by
    obtain ⟨first, others⟩ := h.of_items
    have after := length_lt_printItems style level others.plain margin ']' rest
    have here := length_lt_printAt first.plain style level
      (printItems style level vs (margin ++ ']' :: rest))
    have value := readValue_printAt most style v n room level
      (printItems style level vs (margin ++ ']' :: rest)) first (endsNumber_printItems vs blank)
      (by omega)
    rw [readItems, value, ok_bind]
    cases vs with
    | nil =>
      simp only [printItems, skipSpace_append blank.spaces, skipSpace_cons (c := ']') rfl]
    | cons w ws =>
      obtain ⟨blanks, comma, between⟩ := exists_separator style level
      simp only [printItems, comma, List.length_cons, List.length_append] at here fuel
      have items := readItems_printItems most style w ws n room level margin rest blank others
        (by omega)
      simp only [printItems, comma, List.cons_append, skipSpace_cons (c := ',') rfl,
        skipSpace_append between.spaces, skipSpace_printAt others.of_items.1.plain, items]
      rfl
termination_by _ _ n => n

theorem readMembers_printMembers (most : Nat) (style : Style) :
    ∀ (name : String) (v : Json) (ms : List (String × Json)) (n room level : Nat)
      (before : List (String × Json)) (margin rest : List Char),
      Blanks margin → Readable most (room + 1) (.obj ((name, v) :: ms)) →
      ((before ++ (name, v) :: ms).map Prod.fst).Nodup →
      (printString style.asciiOnly name (':' :: ' ' :: printAt style level v
        (printMembers style level ms (margin ++ '\x7d' :: rest)))).length ≤ n + rest.length →
        readMembers most n room before
          (printString style.asciiOnly name (':' :: ' ' :: printAt style level v
            (printMembers style level ms (margin ++ '\x7d' :: rest)))) =
              .ok (before ++ (name, v) :: ms, rest)
  | name, v, ms, 0, _, level, _, margin, rest, _, h, _, fuel => by
    obtain ⟨first, others⟩ := h.of_members
    have after := length_lt_printMembers style level (holdPlain_of others.plain) margin '\x7d' rest
    have here := length_lt_printAt first.plain style level
      (printMembers style level ms (margin ++ '\x7d' :: rest))
    have named := length_lt_printName style.asciiOnly name
      (printAt style level v (printMembers style level ms (margin ++ '\x7d' :: rest)))
    omega
  | name, v, ms, n + 1, room, level, before, margin, rest, blank, h, distinct, fuel => by
    obtain ⟨first, others⟩ := h.of_members
    have after := length_lt_printMembers style level (holdPlain_of others.plain) margin '\x7d' rest
    have here := length_lt_printAt first.plain style level
      (printMembers style level ms (margin ++ '\x7d' :: rest))
    have named := length_lt_printName style.asciiOnly name
      (printAt style level v (printMembers style level ms (margin ++ '\x7d' :: rest)))
    have fresh : name ∉ before.map Prod.fst := by
      rw [List.map_append, List.map_cons, List.nodup_append] at distinct
      exact fun old => distinct.2.2 name old name List.mem_cons_self rfl
    have value := readValue_printAt most style v n room level
      (printMembers style level ms (margin ++ '\x7d' :: rest)) first
      (endsNumber_printMembers ms blank) (by omega)
    rw [printString, readMembers, readString_printChars, ok_bind]
    simp only [skipSpace_cons (c := ':') rfl]
    rw [skipSpace_blank, skipSpace_printAt first.plain, value, ok_bind]
    simp only [setMember_of_not_mem fresh]
    match ms with
    | [] =>
      simp only [printMembers, skipSpace_append blank.spaces, skipSpace_cons (c := '\x7d') rfl]
    | (next, w) :: ws =>
      obtain ⟨blanks, comma, between⟩ := exists_separator style level
      simp only [printMembers, comma, List.length_cons, List.length_append] at here named fuel
      have members := readMembers_printMembers most style next w ws n room level
        (before ++ [(name, v)]) margin rest blank others
        (by rw [List.append_assoc]; exact distinct) (by omega)
      rw [printString] at members
      simp only [printMembers, printString, comma, List.cons_append, skipSpace_cons (c := ',') rfl,
        skipSpace_append between.spaces, skipSpace_cons (c := '"') rfl, members]
      rw [List.append_assoc, List.singleton_append]
termination_by _ _ _ n => n

end

/-- Within limits that are not below what it needs, a plain value is read from its text. -/
theorem parse_print (style : Style) {v : Json} {limits : Limits} (plain : v.isPlain = true)
    (fits : v.needs ≤ limits) : parse limits (v.print style) = .ok v := by
  have read := readValue_printAt limits.digits style v ((v.print style).length + 1) limits.nesting 0
    [] ⟨plain, fits.1, fits.2⟩ endsNumber_nil (by rw [print]; omega)
  rw [← print] at read
  have text : skipSpace (v.print style) = v.print style := skipSpace_printAt plain style 0 []
  rw [parse, readText, text, read]
  · rfl
  · exact fun after => printAt_ne plain style 0 (.inr rfl) [] after

end Json
end Lineage
