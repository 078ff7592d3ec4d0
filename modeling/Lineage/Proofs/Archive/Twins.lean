/-
# A file on disk and its text

A file on disk that is read as UTF-8 and whose bytes are those of a given text is the same as a
file that holds the text: every question about it has the same answer, but for the file that
positions are in. Only where its bytes look binary it is not: then it has no text, and it cannot
be compared with a file that has one.

Key definitions: `Position.inFile`, `File.Question.inFile`.
Key theorems: `File.ask_twins`, `Change.diffs_binary`, `Change.answer_diff_binary`,
`File.twins_agree`.
-/
import Lineage.Proofs.Archive.Asking
import Lineage.Proofs.Archive.Settling
import Lineage.Proofs.Encoding.Utf8

namespace Lineage

/-- A position in the same place of another file. -/
def Position.inFile (f : File) (p : Position) : Position :=
  { p with file := f }

/-- An answer with its positions in the same places of another file. -/
def File.Question.inFile (f : File) : (q : File.Question) → q.Answer → q.Answer
  | .positionAt .. | .positionOf .. | .endOfLine .. => Option.map (Position.inFile f)
  | .bytes | .binary | .text | .fullLines | .lines => id

/-! ### Look-ups in equal texts -/

/-- Two pieces of work with the same precondition fail alike where it does not hold. -/
theorem Work.answer_require_map {α β : Type} {condition : Prop} [Decidable condition]
    {otherwise : Misuse} {w : Work α} {w' : Work β} {φ : β → α} {a b : Archive}
    (h : condition → w.answer a = (w'.answer b).map φ) :
    (require condition otherwise >>= fun _ => w).answer a =
      ((require condition otherwise >>= fun _ => w').answer b).map φ := by
  unfold require
  split
  next holds => exact h holds
  next => rfl

namespace File

section Looks

variable {f g : File} {a b : Archive} {text : List Char} (hf : f.text.answer a = .ok text)
  (hg : g.text.answer b = .ok text)
include hf hg

theorem find_twins (find : List Text.Line → Option Text.Place) {tab : Int} (h : 1 ≤ tab) :
    (do let lines ← f.fullLines
        pure ((find lines).map fun place => (⟨place, f, tab, h⟩ : Position))).answer a =
      ((do let lines ← g.fullLines
           pure ((find lines).map fun place => (⟨place, g, tab, h⟩ : Position))).answer b).map
        (Option.map (Position.inFile f)) := by
  rw [Work.answer_bind_ok (answer_fullLines hf), Work.answer_bind_ok (answer_fullLines hg),
    Work.answer_pure, Work.answer_pure, Except.map, Option.map_map]
  rfl

theorem positionAt_twins (line column tab : Int) :
    (f.positionAt line column tab).answer a =
      ((g.positionAt line column tab).answer b).map (Option.map (Position.inFile f)) := by
  refine Work.answer_require_map fun _ => Work.answer_require_map fun _ => ?_
  split
  next h => exact find_twins hf hg (Text.placeAt tab · line column) h
  next => rfl

theorem positionOf_twins (offset tab : Int) :
    (f.positionOf offset tab).answer a =
      ((g.positionOf offset tab).answer b).map (Option.map (Position.inFile f)) := by
  refine Work.answer_require_map fun _ => ?_
  split
  next h => exact find_twins hf hg (Text.placeOf tab · offset) h
  next => rfl

theorem endOfLine_twins (line tab : Int) :
    (f.endOfLine line tab).answer a =
      ((g.endOfLine line tab).answer b).map (Option.map (Position.inFile f)) := by
  have again {h : File} {c : Archive} (hc : h.text.answer c = .ok text) :
      h.text.answer (h.fullLines.after c) = .ok text := by
    unfold fullLines
    rw [Work.after_bind_ok hc, Work.after_pure, Work.answer_of_run (run_text_again hc)]
  refine Work.answer_require_map fun _ => ?_
  rw [Work.answer_bind_ok (answer_fullLines hf), Work.answer_bind_ok (answer_fullLines hg)]
  cases Text.lastOffset (Text.splitLines text) line with
  | none => rfl
  | some offset => exact positionOf_twins (again hf) (again hg) offset tab

/-- Two files with one text and the same bytes, none of them binary, are asked to the same
effect. -/
theorem ask_twins (bytes : f.bytes.answer a = g.bytes.answer b) :
    ∀ q : Question, (f.ask q).answer a = ((g.ask q).answer b).map (q.inFile f)
  | .bytes => by
    show f.bytes.answer a = (g.bytes.answer b).map id
    rw [bytes, Except.map_id, id]
  | .binary => by
    show f.isBinary.answer a = (g.isBinary.answer b).map id
    rw [Work.answer_of_run (run_isBinary_of_text hf), Work.answer_of_run (run_isBinary_of_text hg)]
    rfl
  | .text => by
    show f.text.answer a = (g.text.answer b).map id
    rw [hf, hg]
    rfl
  | .fullLines => by
    show f.fullLines.answer a = (g.fullLines.answer b).map id
    rw [answer_fullLines hf, answer_fullLines hg]
    rfl
  | .lines => by
    show f.lines.answer a = (g.lines.answer b).map id
    rw [answer_lines hf, answer_lines hg]
    rfl
  | .positionAt line column tab => positionAt_twins hf hg line column tab
  | .positionOf offset tab => positionOf_twins hf hg offset tab
  | .endOfLine line tab => endOfLine_twins hf hg line tab

end Looks

/-! ### Binary files -/

theorem answer_text_binary {f : File} {a : Archive} {handle : Nat} {root : String}
    {encoding : Encoding} (hf : f.holder = .disk handle root encoding) {bytes : List UInt8}
    (found : f.bytes.answer a = .ok bytes) (binary : looksBinary f.version.path bytes = true) :
    f.text.answer a = .error (.binary .content f.name) := by
  rw [Work.answer_of_run (run_text hf found), if_pos binary]

theorem answer_bytes_after {f g : File} (apart : f.OneHandle g) (a : Archive) :
    f.bytes.answer (g.text.after a) = f.bytes.answer a := by
  by_cases same : f = g
  · rw [← same, after_text, answer_bytes_again]
  · refine answer_bytes_congr (g.reads_text.disk a) fun handle hf => ?_
    refine bytes_after_text (fun hg => same (apart (hf.trans hg.symm) ?_)) a
    rw [hf]
    exact Option.some_ne_none handle

end File

namespace Change

theorem answer_linesOf_binary {f : File} {a : Archive} (h : f.isBinary.answer a = .ok true) :
    (linesOf (some f)).answer a = .error (.binary .diff f.name) := by
  unfold linesOf
  rw [Work.answer_bind_ok h]
  rfl

section Binary

variable {c : Change} {f g : File} {a : Archive} {handle : Nat} {root : String}
  {encoding : Encoding} {bytes : List UInt8} {text : List Char}
  (hf : f.holder = .disk handle root encoding) (found : f.bytes.answer a = .ok bytes)
  (binary : File.looksBinary f.version.path bytes = true)
  (sides : c.old = some f ∧ c.new = some g ∨ c.old = some g ∧ c.new = some f)
include hf found binary sides

/-- No diff is kept of a change with a binary file: it was computed from texts of both sides. -/
theorem diffs_binary (compared : c.origin = .compared) (sourced : c.Sourced a) :
    a.diffs c.handle = none := by
  cases kept : a.diffs c.handle with
  | none => rfl
  | some diff =>
    obtain ⟨_, _, -, oldText, newText⟩ := sourced.texts compared kept
    have none := File.answer_text_binary hf found binary
    obtain ⟨old, -⟩ | ⟨-, new⟩ := sides
    · rw [old] at oldText
      cases none.symm.trans oldText.answer
    · rw [new] at newText
      cases none.symm.trans newText.answer

variable (apart : f.OneHandle g) (hg : g.text.answer a = .ok text)
include apart hg

/-- The lines of a binary file are not read, before those of the other one or after them. -/
theorem answer_bothLines_binary : c.bothLines.answer a = .error (.binary .diff f.name) := by
  have lines {b : Archive} (h : f.bytes.answer b = .ok bytes) :
      (linesOf (some f)).answer b = .error (.binary .diff f.name) := by
    apply answer_linesOf_binary
    rw [Work.answer_of_run (File.run_isBinary hf h), binary]
  unfold bothLines
  obtain ⟨old, new⟩ | ⟨old, new⟩ := sides
  · rw [old, Work.answer_bind_error (lines found)]
  · have side : (sideText (some g)).answer a = .ok text := hg
    have read := run_linesOf side
    have later : f.bytes.answer ((linesOf (some g)).after a) = .ok bytes := by
      rw [Work.after_of_run read]
      exact (File.answer_bytes_after apart a).trans found
    rw [old, new, Work.answer_bind_ok (Work.answer_of_run read),
      Work.answer_bind_error (lines later)]

/-- A change between a binary file and one with a text has no diff, whichever is the old one. -/
theorem answer_diff_binary (compared : c.origin = .compared) (sourced : c.Sourced a) :
    c.diff.answer a = .error (.binary .diff f.name) := by
  rw [answer_diff_unkept compared (diffs_binary hf found binary sides compared sourced),
    answer_bothLines_binary hf found binary sides apart hg]
  rfl

end Binary

end Change

/-- A file on disk with the bytes of a given text is asked to the same effect as the file that
holds the text, or it is binary. Then it has no text, and no diff with a file that has one. -/
theorem File.twins_agree {f twin : File} {a : Archive} {handle : Nat} {root : String}
    {content : List Char} (onDisk : f.holder = .disk handle root .utf8)
    (inMemory : twin.holder = .memory content) (same : f.bytes.answer a = twin.bytes.answer a) :
    (f.isBinary.answer a = .ok true ∧ f.text.answer a = .error (.binary .content f.name) ∧
      ∀ (c : Change) (g : File) (text : List Char), c.origin = .compared →
        (c.old = some f ∧ c.new = some g ∨ c.old = some g ∧ c.new = some f) → f.OneHandle g →
        c.Sourced a → g.text.answer a = .ok text →
          c.diff.answer a = .error (.binary .diff f.name)) ∨
    (f.isBinary.answer a = .ok false ∧
      ∀ q : Question, (f.ask q).answer a = ((twin.ask q).answer a).map (q.inFile f)) := by
  have found : f.bytes.answer a = .ok (Encoding.Utf8.encode content) := by
    rw [same]
    unfold File.bytes
    rw [inMemory]
    rfl
  have test := Work.answer_of_run (run_isBinary onDisk found)
  cases binary : looksBinary f.version.path (Encoding.Utf8.encode content) with
  | true =>
    rw [binary] at test
    exact .inl ⟨test, answer_text_binary onDisk found binary,
      fun c g text compared sides apart sourced hg =>
        Change.answer_diff_binary onDisk found binary sides apart hg compared sourced⟩
  | false =>
    rw [binary] at test
    have text : f.text.answer a = .ok content := by
      rw [Work.answer_of_run (run_text onDisk found), binary, if_neg Bool.false_ne_true,
        decoded_encode]
    have held : twin.text.answer a = .ok content := by
      unfold File.text
      rw [inMemory]
      rfl
    exact .inr ⟨test, ask_twins text held same⟩

/-- A disk with the bytes of a text in one file. -/
def Archive.storing (text : List Char) : Archive :=
  { Archive.empty with
    disk := Disk.empty.set 0 ['a'] (some (.file (Encoding.Utf8.encode text))) }

/-- That file. -/
def File.stored : File :=
  ⟨⟨"a", "r"⟩, .disk 0 "." .utf8⟩

/-- One accented letter among others makes no file binary, but one alone does. -/
theorem File.twins_agree_accented :
    (File.stored.ask .lines).answer (.storing ['n', 'é', '\n']) = .ok [['n', 'é']] ∧
      File.stored.text.answer (.storing ['é']) = .error (.binary .content "a@r") := by
  have plain := @twins_agree .stored ⟨⟨"a", "r"⟩, .memory ['n', 'é', '\n']⟩
    (.storing ['n', 'é', '\n']) 0 "." ['n', 'é', '\n'] rfl rfl (by rfl)
  have strange := @twins_agree .stored ⟨⟨"a", "r"⟩, .memory ['é']⟩ (.storing ['é']) 0 "." ['é'] rfl
    rfl (by rfl)
  constructor
  · obtain ⟨binary, -⟩ | ⟨-, asked⟩ := plain
    · cases (Except.ok.inj binary : false = true)
    · exact (asked .lines).trans (by rfl)
  · obtain ⟨-, none, -⟩ | ⟨binary, -⟩ := strange
    · exact none
    · cases (Except.ok.inj binary : true = false)

end Lineage
