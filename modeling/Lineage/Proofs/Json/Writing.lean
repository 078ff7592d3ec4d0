/-
# What is written is a beginning of the text

Within any limits what is written of a value is a beginning of its text, and all of it if
nothing stops the writer (`begins_write`). Nothing stops it if and only if the limits are not
below what the value needs (`stop_write`). Both go by the recursion of the writer: what is
written of a part stands in front of what is written of all that follows it.

Key definitions: `Written.Begins`.
Key theorems: `Json.begins_write`, `Json.stop_write`.
-/
import Lineage.Json.Writer
import Lineage.Proofs.Json.RoundTrip

namespace Lineage

namespace Written

/-- What is written is a beginning of a text, and all of it if nothing has stopped the writer. -/
structure Begins (w : Written) (text : List Char) : Prop where
  starts : w.text <+: text
  all : w.stop = none → w.text = text

variable {w : Written} {text : List Char}

theorem begins_whole (text : List Char) : (whole text).Begins text :=
  ⟨List.prefix_rfl, fun _ => rfl⟩

theorem begins_stopped (fault : Fault) (text : List Char) : (stopped fault).Begins text :=
  ⟨List.nil_prefix, fun h => absurd h (Option.some_ne_none fault)⟩

theorem Begins.after (h : w.Begins text) (before : List Char) :
    (w.after before).Begins (before ++ text) :=
  ⟨(List.prefix_append_right_inj before).mpr h.starts,
    fun ends => congrArg (before ++ ·) (h.all ends)⟩

/-- A part that is put in front of any text is written in front of what follows it. -/
theorem Begins.put (h : w.Begins text) {put : List Char → List Char}
    (puts : ∀ rest, put rest = put [] ++ rest) (held : List Char) :
    (w.after (held ++ put [])).Begins (held ++ put text) := by
  rw [puts text, ← List.append_assoc]
  exact h.after _

end Written

namespace Json

variable {limits : Limits} {style : Style} {rest : Written} {text : List Char}

/-! ### Beginnings -/

theorem begins_enter (h : rest.Begins text) (level : Nat) :
    (enter limits style level rest).Begins text := by
  unfold enter
  split
  · exact Written.begins_stopped _ _
  · exact h

theorem printString_append (asciiOnly : Bool) (s : String) (before after : List Char) :
    printString asciiOnly s (before ++ after) = printString asciiOnly s before ++ after := by
  rw [(puts_printString asciiOnly s).write_eq, (puts_printString asciiOnly s).write_eq,
    List.append_assoc]

theorem begins_member (h : rest.Begins text) (name : String) :
    (rest.after (printString style.asciiOnly name [':', ' '])).Begins
      (printString style.asciiOnly name (':' :: ' ' :: text)) := by
  have named := h.after (printString style.asciiOnly name [':', ' '])
  rwa [← printString_append] at named

theorem begins_close (style : Style) (h : rest.Begins text) (level : Nat) (bracket : Char) :
    (rest.after (style.margin level ++ [bracket])).Begins
      (style.margin level ++ bracket :: text) := by
  have closed := h.after (style.margin level ++ [bracket])
  rwa [List.append_assoc] at closed

mutual

theorem begins_writeAt (level : Nat) (held : List Char) : ∀ (v : Json) {rest : Written}
    {text : List Char}, rest.Begins text →
      (writeAt limits style level held v rest).Begins (held ++ printAt style level v text)
  | .null, _, _, h => h.put (fun _ => rfl) held
  | .bool true, _, _, h => h.put (fun _ => rfl) held
  | .bool false, _, _, h => h.put (fun _ => rfl) held
  | .int i, _, _, h => by
    unfold writeAt
    split
    · exact Written.begins_stopped _ _
    · exact h.put (fun rest => by rw [printAt, printAt, List.append_nil]) held
  | .float d, _, _, h => h.put (fun rest => by rw [printAt, printAt, List.append_nil]) held
  | .str s, _, _, h => h.put (fun rest => by rw [printAt, printAt, ← printString_append]; rfl) held
  | .arr [], _, _, h => (begins_enter (h.after ['[', ']']) level).after held
  | .arr (v :: vs), _, _, h => by
    have items := begins_writeItems (level + 1) vs (begins_close style h level ']')
    have first := begins_writeAt (level + 1)
      ('[' :: style.margin (level + 1)) v items
    exact (begins_enter first level).after held
  | .obj [], _, _, h => (begins_enter (h.after ['\x7b', '\x7d']) level).after held
  | .obj ((name, v) :: ms), _, _, h => by
    have members := begins_writeMembers (level + 1) ms
      (begins_close style h level '\x7d')
    have first := begins_writeAt (level + 1) [] v members
    exact (begins_enter ((begins_member first name).after
      ('\x7b' :: style.margin (level + 1))) level).after held

theorem begins_writeItems (level : Nat) : ∀ (vs : List Json) {rest : Written}
    {text : List Char}, rest.Begins text →
      (writeItems limits style level vs rest).Begins (printItems style level vs text)
  | [], _, _, h => h
  | v :: vs, _, _, h =>
    begins_writeAt level (style.separator level) v (begins_writeItems level vs h)

theorem begins_writeMembers (level : Nat) : ∀ (ms : List (String × Json)) {rest : Written}
    {text : List Char}, rest.Begins text →
      (writeMembers limits style level ms rest).Begins (printMembers style level ms text)
  | [], _, _, h => h
  | (name, v) :: ms, _, _, h => by
    have value := begins_writeAt level [] v (begins_writeMembers level ms h)
    exact (begins_member value name).after (style.separator level)

end

/-- What is written of a value is a beginning of its text, and all of it if nothing stops the
writer. -/
theorem begins_write (limits : Limits) (style : Style) (v : Json) :
    (v.write limits style).Begins (v.print style) :=
  begins_writeAt 0 [] v (Written.begins_whole [])

/-- A number of four digits where three are allowed. -/
example : ((Json.arr [.int 1, .int 1000]).write ⟨1, 3⟩ .opened).text = "[\n  1".toList := by decide

/-! ### What stops the writer -/

theorem stop_enter {level : Nat} : (enter limits style level rest).stop = none ↔
    level < limits.nesting ∧ rest.stop = none := by
  unfold enter
  split
  · exact iff_of_false (Option.some_ne_none _) (by omega)
  · exact ⟨fun h => ⟨by omega, h⟩, fun h => h.2⟩

mutual

/-- Nothing stops the writer in a value that lies within the limits, nor before or behind it. -/
theorem stop_writeAt {level : Nat} (within : level ≤ limits.nesting) :
    ∀ (held : List Char) (v : Json) (rest : Written),
      (writeAt limits style level held v rest).stop = none ↔
        (level + v.depth ≤ limits.nesting ∧ v.digits ≤ limits.digits) ∧ rest.stop = none
  | _, .null, rest => by simp [writeAt, Written.after, depth, digits, within]
  | _, .bool b, rest => by simp [writeAt, Written.after, depth, digits, within]
  | _, .int i, rest => by
    unfold writeAt
    split
    · exact iff_of_false (Option.some_ne_none _) (by omega)
    · simp only [Written.after, depth]
      exact ⟨fun h => ⟨⟨within, by omega⟩, h⟩, fun h => h.2⟩
  | _, .float d, rest => by simp [writeAt, Written.after, depth, digits, within]
  | _, .str s, rest => by simp [writeAt, Written.after, depth, digits, within]
  | _, .arr [], rest => by
    simp only [writeAt, Written.after, stop_enter, depth, depthOfItems, digits, digitsOfItems]
    grind
  | _, .arr (v :: vs), rest => by
    simp only [writeAt, Written.after, stop_enter]
    by_cases deep : level < limits.nesting
    · rw [stop_writeAt deep, stop_writeItems deep]
      simp only [depth, depthOfItems, digits, digitsOfItems]
      grind
    · exact iff_of_false (fun h => deep h.1) (by simp only [depth]; omega)
  | _, .obj [], rest => by
    simp only [writeAt, Written.after, stop_enter, depth, depthOfMembers, digits, digitsOfMembers]
    grind
  | _, .obj ((name, v) :: ms), rest => by
    simp only [writeAt, Written.after, stop_enter]
    by_cases deep : level < limits.nesting
    · rw [stop_writeAt deep, stop_writeMembers deep]
      simp only [depth, depthOfMembers, digits, digitsOfMembers]
      grind
    · exact iff_of_false (fun h => deep h.1) (by simp only [depth]; omega)

theorem stop_writeItems {level : Nat} (within : level ≤ limits.nesting) :
    ∀ (vs : List Json) (rest : Written), (writeItems limits style level vs rest).stop = none ↔
      (level + depthOfItems vs ≤ limits.nesting ∧ digitsOfItems vs ≤ limits.digits) ∧
        rest.stop = none
  | [], rest => by simp [writeItems, depthOfItems, digitsOfItems, within]
  | v :: vs, rest => by
    rw [writeItems, stop_writeAt within, stop_writeItems within, depthOfItems, digitsOfItems]
    grind

theorem stop_writeMembers {level : Nat} (within : level ≤ limits.nesting) :
    ∀ (ms : List (String × Json)) (rest : Written),
      (writeMembers limits style level ms rest).stop = none ↔
        (level + depthOfMembers ms ≤ limits.nesting ∧ digitsOfMembers ms ≤ limits.digits) ∧
          rest.stop = none
  | [], rest => by simp [writeMembers, depthOfMembers, digitsOfMembers, within]
  | (name, v) :: ms, rest => by
    simp only [writeMembers, Written.after]
    rw [stop_writeAt within, stop_writeMembers within, depthOfMembers, digitsOfMembers]
    grind

end

/-- Nothing stops the writer if and only if a value needs no more than the limits. -/
theorem stop_write {v : Json} : (v.write limits style).stop = none ↔ v.needs ≤ limits := by
  unfold write
  rw [stop_writeAt (Nat.zero_le _), Nat.zero_add]
  exact and_iff_left rfl

theorem text_write {v : Json} (fits : v.needs ≤ limits) :
    (v.write limits style).text = v.print style :=
  (begins_write limits style v).all (stop_write.mpr fits)

end Json
end Lineage
