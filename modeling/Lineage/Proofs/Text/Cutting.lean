/-
# Cutting a text inside its lines

A text may be cut right behind a character that ends no line, or right before one. The lines of
what is left are those of the text, up to the line that is cut or from it on, and of that line the
part that is left (`splitLines_take`, `splitLines_drop`): such a part of a line is well formed
itself, and whether a carriage return runs into the next line is not changed by it. A stretch
between two such cuts has the part of its first line, the lines in between and the part of its
last line (`splitLines_slice`, `splitLines_slice_self`).

Key definitions: `PlainAt`.
Key theorems: `splitLines_take`, `splitLines_drop`, `splitLines_slice`, `splitLines_slice_self`.
-/
import Lineage.Proofs.Text.Offsets
import Lineage.Proofs.Text.Splitting

namespace Lineage.Text

/-- At a place in a line stands a character that does not end it. -/
def PlainAt (row : Line) (i : Nat) : Prop :=
  ∃ c, row[i]? = some c ∧ isTerminator c = false

theorem PlainAt.lt {line : Line} {i : Nat} (h : PlainAt line i) : i < line.length := by
  obtain ⟨c, hc, -⟩ := h
  exact (List.getElem?_eq_some_iff.mp hc).1

theorem PlainAt.slice {line : Line} {i start stop : Nat} (h : PlainAt line i) (le : start ≤ i)
    (lt : i < stop) : PlainAt ((line.take stop).drop start) (i - start) := by
  obtain ⟨c, hc, plain⟩ := h
  refine ⟨c, ?_, plain⟩
  rw [List.getElem?_drop, Nat.add_sub_cancel' le, List.getElem?_take_of_lt lt, hc]

/-! ### Cutting a line -/

namespace Cut

variable {line body ending : List Char} {i : Nat}

theorem lt_of_plainAt (h : Cut line body ending) (plain : PlainAt line i) : i < body.length := by
  obtain ⟨c, hc, hplain⟩ := plain
  refine Nat.lt_of_not_le fun behind => ?_
  rw [h.split, List.getElem?_append_right behind] at hc
  have last : ∀ d ∈ ending, isTerminator d = true := by
    rcases h.ended with e | e | e | e <;> rw [e] <;> simp [isTerminator]
  rw [last c (List.mem_of_getElem? hc)] at hplain
  cases hplain

/-- A line that is cut right behind a character of its body goes without an ending. -/
theorem take (h : Cut line body ending) (plain : PlainAt line i) :
    Cut (line.take (i + 1)) (body.take (i + 1)) [] where
  split := by
    rw [h.split, List.take_append_of_le_length (h.lt_of_plainAt plain), List.append_nil]
  feedless mem := h.feedless (List.mem_of_mem_take mem)
  returnless mem := h.returnless (List.mem_of_mem_take mem)
  ended := .inr (.inr (.inr rfl))

/-- A line that is cut in its body keeps its ending. -/
theorem drop (h : Cut line body ending) (plain : PlainAt line i) :
    Cut (line.drop i) (body.drop i) ending where
  split := by
    rw [h.split, List.drop_append_of_le_length (Nat.le_of_lt (h.lt_of_plainAt plain))]
  feedless mem := h.feedless (List.mem_of_mem_drop mem)
  returnless mem := h.returnless (List.mem_of_mem_drop mem)
  ended := h.ended

end Cut

namespace WellFormed

variable {line : Line} {i : Nat}

theorem drop : ∀ {lines : List Line}, WellFormed lines → ∀ k : Nat, WellFormed (lines.drop k)
  | _, h, 0 => h
  | [], h, _ + 1 => h
  | _ :: _, h, k + 1 => (wellFormed_cons.mp h).2.2.drop k

/-- The first of well-formed lines may be cut in its body. -/
theorem dropFirst {lines : List Line} (h : WellFormed (line :: lines)) (plain : PlainAt line i) :
    WellFormed (line.drop i :: lines) := by
  obtain ⟨⟨body, ending, cut, last⟩, apart, others⟩ := wellFormed_cons.mp h
  refine wellFormed_cons.mpr ⟨⟨_, _, cut.drop plain, fun none => ?_⟩, fun back => apart ?_, others⟩
  · have filled := cut.lt_of_plainAt plain
    exact ⟨List.ne_nil_of_length_pos (by rw [List.length_drop]; omega), (last none).2⟩
  · rwa [List.getLast?_drop, if_neg (Nat.not_le_of_lt plain.lt)] at back

/-- Well-formed lines up to one of them that is cut right behind a character of its body are well
formed. -/
theorem takeLast (plain : PlainAt line i) : ∀ {lines : List Line} {k : Nat}, WellFormed lines →
    lines[k]? = some line → WellFormed (lines.take k ++ [line.take (i + 1)])
  | first :: lines, 0, h, hk => by
    obtain rfl : first = line := Option.some.inj hk
    obtain ⟨⟨body, ending, cut, -⟩, -, -⟩ := wellFormed_cons.mp h
    have filled := cut.lt_of_plainAt plain
    refine wellFormed_cons.mpr ⟨⟨_, _, cut.take plain, fun _ => ⟨?_, rfl⟩⟩, by simp, wellFormed_nil⟩
    exact List.ne_nil_of_length_pos (by rw [List.length_take]; omega)
  | first :: lines, k + 1, h, hk => by
    have hk : lines[k]? = some line := hk
    obtain ⟨⟨body, ending, cut, last⟩, apart, others⟩ := wellFormed_cons.mp h
    refine wellFormed_cons.mpr ⟨⟨body, ending, cut, fun none => ?_⟩, fun back next hnext => ?_,
      others.takeLast plain hk⟩
    · rw [(last none).2] at hk
      cases hk
    · cases k with
      | zero =>
        obtain rfl : line.take (i + 1) = next := Option.some.inj hnext
        rw [List.head?_take, if_neg (Nat.succ_ne_zero i)]
        exact apart back line (by rw [List.head?_eq_getElem?]; exact hk)
      | succ k =>
        cases lines with
        | nil => cases hk
        | cons second more => exact apart back next hnext

end WellFormed

/-! ### Cutting a text -/

section Text

variable {text : List Char} {line : Line} {k i : Nat}

/-- A text has at a place in a line what the line has there. -/
theorem getElem?_lineStart {row : Line} (hk : (splitLines text)[k]? = some row)
    (bound : i < row.length) : text[lineStart (splitLines text) k + i]? = row[i]? := by
  have start := flatten_drop_lineStart hk
  rw [flatten_splitLines] at start
  rw [← List.getElem?_drop, start, List.getElem?_append_left bound]

theorem PlainAt.inText (hk : (splitLines text)[k]? = some line) (h : PlainAt line i) :
    PlainAt text (lineStart (splitLines text) k + i) := by
  have same := getElem?_lineStart hk h.lt
  obtain ⟨c, hc, plain⟩ := h
  exact ⟨c, same.trans hc, plain⟩

theorem flatten_take_lineStart (lines : List Line) (k : Nat) :
    lines.flatten.take (lineStart lines k) = (lines.take k).flatten := by
  have whole := congrArg List.flatten (List.take_append_drop k lines)
  rw [List.flatten_append] at whole
  rw [← whole, lineStart, List.take_left]

/-- The lines of a text that is cut right behind a character that ends no line. -/
theorem splitLines_take (hk : (splitLines text)[k]? = some line) (plain : PlainAt line i) :
    splitLines (text.take (lineStart (splitLines text) k + (i + 1))) =
      (splitLines text).take k ++ [line.take (i + 1)] := by
  have above := flatten_take_lineStart (splitLines text) k
  rw [flatten_splitLines] at above
  have within : (text.drop (lineStart (splitLines text) k)).take (i + 1) = line.take (i + 1) := by
    have start := flatten_drop_lineStart hk
    rw [flatten_splitLines] at start
    rw [start, List.take_append_of_le_length plain.lt]
  have whole : text.take (lineStart (splitLines text) k + (i + 1)) =
      ((splitLines text).take k ++ [line.take (i + 1)]).flatten := by
    rw [List.take_add, above, within, List.flatten_append, List.flatten_singleton]
  rw [whole]
  exact splitLines_flatten ((wellFormed_splitLines text).takeLast plain hk)

/-- The lines of a text that is cut right before a character that ends no line. -/
theorem splitLines_drop (hk : (splitLines text)[k]? = some line) (plain : PlainAt line i) :
    splitLines (text.drop (lineStart (splitLines text) k + i)) =
      line.drop i :: (splitLines text).drop (k + 1) := by
  have whole : text.drop (lineStart (splitLines text) k + i) =
      (line.drop i :: (splitLines text).drop (k + 1)).flatten := by
    have start := flatten_drop_lineStart hk
    rw [flatten_splitLines] at start
    rw [← List.drop_drop, start, List.drop_append_of_le_length (Nat.le_of_lt plain.lt),
      List.flatten_cons]
  have onward := (wellFormed_splitLines text).drop k
  have inside := (List.getElem?_eq_some_iff.mp hk).1
  rw [List.drop_eq_getElem_cons inside, (List.getElem?_eq_some_iff.mp hk).2] at onward
  rw [whole]
  exact splitLines_flatten (onward.dropFirst plain)

variable {last : Line} {l j : Nat}

/-- A stretch of a text over several lines has the part of the first line from where it begins,
the lines in between and the part of the last line up to where it ends. -/
theorem splitLines_slice (hk : (splitLines text)[k]? = some line) (plain : PlainAt line i)
    (hl : (splitLines text)[l]? = some last) (plain' : PlainAt last j) (lt : k < l) :
    splitLines ((text.take (lineStart (splitLines text) l + (j + 1))).drop
        (lineStart (splitLines text) k + i)) =
      line.drop i :: (((splitLines text).take l).drop (k + 1) ++ [last.take (j + 1)]) := by
  have front := splitLines_take hl plain'
  have length : k < ((splitLines text).take l).length := by
    have inside := (List.getElem?_eq_some_iff.mp hl).1
    rw [List.length_take]
    omega
  have here : (splitLines (text.take (lineStart (splitLines text) l + (j + 1))))[k]? =
      some line := by
    rw [front, List.getElem?_append_left length, List.getElem?_take_of_lt lt, hk]
  have start : lineStart (splitLines (text.take (lineStart (splitLines text) l + (j + 1)))) k =
      lineStart (splitLines text) k := by
    rw [front, lineStart, lineStart, List.take_append_of_le_length (Nat.le_of_lt length),
      List.take_take, Nat.min_eq_left (Nat.le_of_lt lt)]
  have both := splitLines_drop here plain
  rw [start, front, List.drop_append_of_le_length length] at both
  exact both

/-- A stretch of a text within a line is a line. -/
theorem splitLines_slice_self (hk : (splitLines text)[k]? = some line) (plain : PlainAt line i)
    (plain' : PlainAt line j) (le : i ≤ j) :
    splitLines ((text.take (lineStart (splitLines text) k + (j + 1))).drop
        (lineStart (splitLines text) k + i)) =
      [(line.take (j + 1)).drop i] := by
  have front := splitLines_take hk plain'
  have inside := (List.getElem?_eq_some_iff.mp hk).1
  have length : ((splitLines text).take k).length = k := by
    rw [List.length_take, Nat.min_eq_left (Nat.le_of_lt inside)]
  have here : (splitLines (text.take (lineStart (splitLines text) k + (j + 1))))[k]? =
      some (line.take (j + 1)) := by
    rw [front, List.getElem?_append_right (Nat.le_of_eq length), length, Nat.sub_self]
    rfl
  have start : lineStart (splitLines (text.take (lineStart (splitLines text) k + (j + 1)))) k =
      lineStart (splitLines text) k := by
    rw [front, lineStart, lineStart, List.take_append_of_le_length (Nat.le_of_eq length.symm),
      List.take_take, Nat.min_self]
  have still : PlainAt (line.take (j + 1)) i := by
    obtain ⟨c, hc, hplain⟩ := plain
    exact ⟨c, by rw [List.getElem?_take_of_lt (Nat.lt_succ_of_le le), hc], hplain⟩
  have below : ((splitLines text).take k ++ [line.take (j + 1)]).drop (k + 1) = [] :=
    List.drop_eq_nil_of_le (by rw [List.length_append, length]; exact Nat.le_refl _)
  have both := splitLines_drop here still
  rw [start, front, below] at both
  exact both

end Text

end Lineage.Text
