/-
# Splitting a text is the one way to cut it into lines

A line is a body without line feeds and carriage returns and what ends it
(`Cut`). Lines make up a text in one way only: every line is ended, except that the
last one need not be if it holds a character, and a carriage return that ends a line
is not followed by a line feed, which would belong to the same ending
(`WellFormed`). `splitLines` finds that way and no other (`splitLines_eq_iff`):
what it finds is well formed, by induction along its own recursion
(`wellFormed_splitLines`), and it takes well-formed lines that are joined apart again,
line by line (`splitLines_flatten`).

Key definitions: `Cut`, `WellFormed`.
Key theorems: `wellFormed_splitLines`, `splitLines_flatten`, `splitLines_eq_iff`.
-/
import Lineage.Proofs.Text.Looking

namespace Lineage.Text

/-! ### Bodies and endings -/

/-- A line is a body and an ending: the body has no line feed and no carriage return in
it, the ending is one of the three that there are, or missing. -/
structure Cut (line body ending : List Char) : Prop where
  split : line = body ++ ending
  feedless : '\n' ∉ body
  returnless : '\r' ∉ body
  ended : ending = ['\n'] ∨ ending = ['\r', '\n'] ∨ ending = ['\r'] ∨ ending = []

theorem isTerminator_eq_false {c : Char} : isTerminator c = false ↔ c ≠ '\n' ∧ c ≠ '\r' := by
  simp [isTerminator]

theorem Cut.bare {ending : List Char}
    (h : ending = ['\n'] ∨ ending = ['\r', '\n'] ∨ ending = ['\r'] ∨ ending = []) :
    Cut ending [] ending :=
  ⟨rfl, List.not_mem_nil, List.not_mem_nil, h⟩

theorem Cut.cons {c : Char} {line body ending : List Char} (h : Cut line body ending)
    (hc : isTerminator c = false) : Cut (c :: line) (c :: body) ending := by
  obtain ⟨feed, back⟩ := isTerminator_eq_false.mp hc
  refine ⟨congrArg (c :: ·) h.split, ?_, ?_, h.ended⟩
  · exact List.not_mem_cons_of_ne_of_not_mem feed.symm h.feedless
  · exact List.not_mem_cons_of_ne_of_not_mem back.symm h.returnless

/-- The first character of the body ends no line, and the rest is cut like the line. -/
theorem Cut.uncons {c : Char} {line body ending : List Char} (h : Cut line (c :: body) ending) :
    isTerminator c = false ∧ ∃ tail, line = c :: tail ∧ Cut tail body ending := by
  have feed := List.ne_and_not_mem_of_not_mem_cons h.feedless
  have back := List.ne_and_not_mem_of_not_mem_cons h.returnless
  exact ⟨isTerminator_eq_false.mpr ⟨feed.1.symm, back.1.symm⟩, body ++ ending, h.split,
    rfl, feed.2, back.2, h.ended⟩

theorem Cut.stripEnd_eq : ∀ {body line ending : List Char}, Cut line body ending →
    stripEnd line = body
  | [], line, ending, h => by
    have all : line = ending := h.split
    rcases h.ended with e | e | e | e <;> rw [all, e] <;> rfl
  | c :: body, line, ending, h => by
    obtain ⟨plain, tail, rfl, rest⟩ := h.uncons
    calc stripEnd (c :: tail) = c :: stripEnd tail := stripEnd_cons plain tail
      _ = c :: body := congrArg (c :: ·) rest.stripEnd_eq

/-! ### Well-formed lines -/

/-- What the lines of a text look like: each is a body and an ending, only the last one
can go without an ending, and then it has a body; and no carriage return that ends a
line has the line feed right after it that would belong to it. -/
structure WellFormed (lines : List Line) : Prop where
  cut : ∀ (k : Nat) (line : Line), lines[k]? = some line →
    ∃ body ending, Cut line body ending ∧ (ending = [] → body ≠ [] ∧ k + 1 = lines.length)
  apart : ∀ (k : Nat) (line next : Line), lines[k]? = some line → lines[k + 1]? = some next →
    line.getLast? = some '\r' → next.head? ≠ some '\n'

theorem wellFormed_nil : WellFormed [] :=
  ⟨fun _ _ h => by simp at h, fun _ _ _ h => by simp at h⟩

/-- Lines are well formed if the first is and goes with the others. -/
theorem wellFormed_cons {line : Line} {lines : List Line} :
    WellFormed (line :: lines) ↔
      (∃ body ending, Cut line body ending ∧ (ending = [] → body ≠ [] ∧ lines = [])) ∧
        (line.getLast? = some '\r' → ∀ next, lines.head? = some next → next.head? ≠ some '\n') ∧
          WellFormed lines := by
  constructor
  · intro h
    refine ⟨?_, fun back next hnext => ?_, fun k l hl => ?_, fun k l next hl hnext => ?_⟩
    · obtain ⟨body, ending, cut, last⟩ := h.cut 0 line rfl
      exact ⟨body, ending, cut, fun none => ⟨(last none).1, by simpa using (last none).2.symm⟩⟩
    · exact h.apart 0 line next rfl (by rw [← hnext, List.head?_eq_getElem?]; rfl) back
    · obtain ⟨body, ending, cut, last⟩ := h.cut (k + 1) l hl
      exact ⟨body, ending, cut, fun none => ⟨(last none).1, by simpa using (last none).2⟩⟩
    · exact h.apart (k + 1) l next hl hnext
  · rintro ⟨first, apart, others⟩
    refine ⟨fun k l hl => ?_, fun k l next hl hnext => ?_⟩
    · cases k with
      | zero =>
        obtain ⟨body, ending, cut, last⟩ := first
        cases hl
        exact ⟨body, ending, cut, fun none => ⟨(last none).1, by simp [(last none).2]⟩⟩
      | succ k =>
        obtain ⟨body, ending, cut, last⟩ := others.cut k l hl
        exact ⟨body, ending, cut, fun none => ⟨(last none).1, by simp [(last none).2]⟩⟩
    · cases k with
      | zero =>
        cases hl
        exact fun back => apart back next (by rw [List.head?_eq_getElem?]; exact hnext)
      | succ k => exact others.apart k l next hl hnext

/-! ### What splitting finds is well formed -/

theorem head?_of_head?_splitLines {text : List Char} {line : Line}
    (h : (splitLines text).head? = some line) : line.head? = text.head? := by
  obtain ⟨lines, split⟩ := List.head?_eq_some_iff.mp h
  have filled : line ≠ [] := ne_nil_of_mem_splitLines (by rw [split]; exact List.mem_cons_self)
  obtain ⟨c, more, rfl⟩ := List.exists_cons_of_ne_nil filled
  calc some c = ((c :: more) ++ lines.flatten).head? := rfl
    _ = (splitLines text).flatten.head? := by rw [split, List.flatten_cons]
    _ = text.head? := congrArg List.head? (flatten_splitLines text)

theorem wellFormed_splitLines (text : List Char) : WellFormed (splitLines text) := by
  fun_induction splitLines text with
  | case1 => exact wellFormed_nil
  | case2 rest ih =>
    exact wellFormed_cons.mpr ⟨⟨[], _, Cut.bare (.inr (.inl rfl)), by simp⟩, by simp, ih⟩
  | case3 c rest single hc ih =>
    have ended : [c] = ['\n'] ∨ [c] = ['\r', '\n'] ∨ [c] = ['\r'] ∨ [c] = [] := by
      simpa [isTerminator] using hc
    refine wellFormed_cons.mpr ⟨⟨[], [c], Cut.bare ended, by simp⟩, fun back next hnext => ?_, ih⟩
    -- A carriage return and a line feed after it would have been taken together.
    have hr : c = '\r' := by simpa using back
    intro feed
    rw [head?_of_head?_splitLines hnext] at feed
    obtain ⟨rest', rfl⟩ := List.head?_eq_some_iff.mp feed
    exact single rest' hr rfl
  | case4 c rest _ hc none ih =>
    have plain : isTerminator c = false := by simpa using hc
    have cut : Cut [c] [c] [] := (Cut.bare (.inr (.inr (.inr rfl)))).cons plain
    exact wellFormed_cons.mpr ⟨⟨[c], [], cut, by simp⟩, by simp, wellFormed_nil⟩
  | case5 c rest _ hc line lines some ih =>
    have plain : isTerminator c = false := by simpa using hc
    have filled : line ≠ [] := ne_nil_of_mem_splitLines (by rw [some]; exact List.mem_cons_self)
    obtain ⟨⟨body, ending, cut, last⟩, apart, others⟩ := wellFormed_cons.mp (some ▸ ih)
    refine wellFormed_cons.mpr ⟨⟨c :: body, ending, cut.cons plain, fun none => ?_⟩, ?_, others⟩
    · exact ⟨List.cons_ne_nil c body, (last none).2⟩
    · rwa [List.getLast?_cons_of_ne_nil filled]

/-! ### Joined lines are taken apart again -/

theorem splitLines_terminator {c : Char} (hc : isTerminator c = true) {text : List Char}
    (apart : c = '\r' → text.head? ≠ some '\n') :
    splitLines (c :: text) = [c] :: splitLines text := by
  rw [splitLines, if_pos hc]
  intro rest back feed
  exact apart back (by rw [feed]; rfl)

theorem splitLines_cons {c : Char} (hc : isTerminator c = false) (text : List Char) :
    splitLines (c :: text) =
      match splitLines text with
      | [] => [[c]]
      | line :: lines => (c :: line) :: lines := by
  have plain : ¬ isTerminator c = true := by simp [hc]
  have unfolded := splitLines.eq_3 c text fun _ back => absurd back (isTerminator_eq_false.mp hc).2
  rw [if_neg plain] at unfolded
  exact unfolded

/-- A line that what follows does not run into is split off. -/
theorem Cut.splitLines_append {rest : List Char} : ∀ {body line ending : List Char},
    Cut line body ending → (ending = [] → body ≠ [] ∧ rest = []) →
      (line.getLast? = some '\r' → rest.head? ≠ some '\n') →
        splitLines (line ++ rest) = line :: splitLines rest
  | [], line, ending, cut, last, apart => by
    have all : line = ending := cut.split
    rcases cut.ended with e | e | e | e
    · rw [all, e]
      exact splitLines_terminator rfl (by simp)
    · rw [all, e]
      rfl
    · rw [all, e]
      exact splitLines_terminator rfl fun _ => apart (by rw [all, e]; rfl)
    · exact absurd rfl (last e).1
  | c :: body, line, ending, cut, last, apart => by
    obtain ⟨plain, tail, rfl, rest'⟩ := cut.uncons
    by_cases single : body = [] ∧ ending = []
    · have alone : tail = [] := by rw [rest'.split, single.1, single.2]; rfl
      rw [alone, (last single.2).2, List.append_nil]
      exact splitLines_cons plain []
    · have further : splitLines (tail ++ rest) = tail :: splitLines rest := by
        refine rest'.splitLines_append (fun none => ⟨fun empty => single ⟨empty, none⟩, ?_⟩) ?_
        · exact (last none).2
        · intro back
          refine apart ?_
          rwa [List.getLast?_cons_of_ne_nil]
          rintro rfl
          cases back
      rw [List.cons_append, splitLines_cons plain, further]

/-- Well-formed lines are found again in the text that they make up. -/
theorem splitLines_flatten : ∀ {lines : List Line}, WellFormed lines →
    splitLines lines.flatten = lines
  | [], _ => rfl
  | line :: lines, h => by
    obtain ⟨⟨body, ending, cut, last⟩, apart, others⟩ := wellFormed_cons.mp h
    have again : splitLines lines.flatten = lines := splitLines_flatten others
    have parted : line.getLast? = some '\r' → lines.flatten.head? ≠ some '\n' := by
      intro back
      cases lines with
      | nil => simp
      | cons next more =>
        have start : next.head? = (next :: more).flatten.head? :=
          head?_of_head?_splitLines (congrArg List.head? again)
        rw [← start]
        exact apart back next rfl
    calc splitLines (line :: lines).flatten = splitLines (line ++ lines.flatten) := rfl
      _ = line :: splitLines lines.flatten :=
        cut.splitLines_append (fun none => ⟨(last none).1, by rw [(last none).2]; rfl⟩) parted
      _ = line :: lines := congrArg (line :: ·) again

/-- Splitting a text into lines is the one way to cut it into well-formed lines, and
stripping a line leaves its body. -/
theorem splitLines_eq_iff (text : List Char) (lines : List Line) :
    (splitLines text = lines ↔ lines.flatten = text ∧ WellFormed lines) ∧
      ∀ line ∈ splitLines text, ∀ body ending, Cut line body ending → stripEnd line = body := by
  refine ⟨⟨?_, ?_⟩, fun _ _ _ _ cut => cut.stripEnd_eq⟩
  · rintro rfl
    exact ⟨flatten_splitLines text, wellFormed_splitLines text⟩
  · rintro ⟨rfl, wellFormed⟩
    exact splitLines_flatten wellFormed

example : splitLines "a\r\r\n\n\rb".toList =
    ["a\r".toList, "\r\n".toList, "\n".toList, "\r".toList, "b".toList] := by decide

end Lineage.Text
