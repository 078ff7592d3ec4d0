/-
# What is asked about a file

Whatever is asked about a file is answered from its bytes: in two archives in which its bytes are
answered alike, every question about it is (`File.answer_ask_congr`). The bytes are those that
are kept, or else what the disk holds now.

Key definitions: `File.Question`, `File.ask`, `Work.SeesOnly`.
Key theorems: `File.modular_ask`, `File.answer_bytes_again`, `File.answer_ask_congr`.
-/
import Lineage.Proofs.Archive.Consulting

namespace Lineage
namespace File

/-- What can be asked about a file. -/
inductive Question where
  | bytes
  | binary
  | text
  | fullLines
  | lines
  | positionAt (line column tab : Int)
  | positionOf (offset tab : Int)
  | endOfLine (line tab : Int)
  deriving DecidableEq, Repr

/-- What a question is answered with. -/
def Question.Answer : Question → Type
  | .bytes => List UInt8
  | .binary => Bool
  | .text => List Char
  | .fullLines => List Text.Line
  | .lines => List (List Char)
  | .positionAt .. | .positionOf .. | .endOfLine .. => Option Position

/-- Asks a question about a file. -/
def ask (f : File) : (q : Question) → Work q.Answer
  | .bytes => f.bytes
  | .binary => f.isBinary
  | .text => f.text
  | .fullLines => f.fullLines
  | .lines => f.lines
  | .positionAt line column tab => f.positionAt line column tab
  | .positionOf offset tab => f.positionOf offset tab
  | .endOfLine line tab => f.endOfLine line tab

/-- To ask about a file is to read its bytes, and to work on them. -/
theorem modular_ask {P : ∀ α : Type, Work α → Prop} (hP : Work.Modular P) {f : File}
    (bytes : P _ f.bytes) : ∀ q : Question, P _ (f.ask q)
  | .bytes => bytes
  | .binary => modular_isBinary hP bytes
  | .text => modular_text hP bytes
  | .fullLines => modular_fullLines hP bytes
  | .lines => modular_lines hP bytes
  | .positionAt line column tab => modular_positionAt hP bytes line column tab
  | .positionOf offset tab => modular_positionOf hP bytes offset tab
  | .endOfLine line tab => modular_endOfLine hP bytes line tab

theorem reads_ask (f : File) (q : Question) : (f.ask q).Reads :=
  modular_ask Work.Reads.modular f.reads_bytes q

end File

/-! ### Answers from bytes -/

/-- Work that answers alike wherever the bytes of a file are answered alike, and that leaves
them so. -/
def Work.SeesOnly {α : Type} (f : File) (w : Work α) : Prop :=
  ∀ a b, f.bytes.answer a = f.bytes.answer b →
    w.answer a = w.answer b ∧ f.bytes.answer (w.after a) = f.bytes.answer (w.after b)

namespace File

theorem answer_bytes_note (f : File) (n : Notice) (a : Archive) :
    f.bytes.answer ((Work.note n).after a) = f.bytes.answer a :=
  f.ignoresLog_bytes.answer_relog a (a.log ++ [n])

/-- Reading the bytes of a file changes nothing about them. -/
theorem answer_bytes_again (f : File) (a : Archive) :
    f.bytes.answer (f.bytes.after a) = f.bytes.answer a := by
  cases hb : f.bytes.answer a with
  | ok bytes => exact f.reads_bytes.repeats hb (.refl _)
  | error e =>
    cases hf : f.holder with
    | memory text =>
      unfold File.bytes at hb
      rw [hf] at hb
      cases hb
    | disk handle root encoding =>
      -- what failed has kept nothing, and so the disk is asked once more
      obtain ⟨_, -, run⟩ | ⟨_, -, -, run⟩ | ⟨_, -, -, run⟩ := run_bytes hf a
      · cases hb.symm.trans (Work.answer_of_run run)
      · cases hb.symm.trans (Work.answer_of_run run)
      · rw [Work.after_of_run run, noting, answer_bytes_note, hb]

theorem seesOnly_modular (f : File) : Work.Modular fun _ w => w.SeesOnly f where
  pure _ := fun _ _ h => ⟨rfl, h⟩
  throw _ := fun _ _ h => ⟨rfl, h⟩
  note n _ := fun a b h => ⟨rfl, by rw [answer_bytes_note, answer_bytes_note, h]⟩
  bind {_ _ w next} hw hnext := by
    intro a b h
    obtain ⟨same, left⟩ := hw a b h
    cases hx : w.answer a with
    | error e =>
      have hy := same.symm.trans hx
      rw [Work.answer_bind_error hx, Work.answer_bind_error hy, Work.after_bind_error hx,
        Work.after_bind_error hy]
      exact ⟨rfl, left⟩
    | ok x =>
      have hy := same.symm.trans hx
      rw [Work.answer_bind_ok hx, Work.answer_bind_ok hy, Work.after_bind_ok hx,
        Work.after_bind_ok hy]
      exact hnext x _ _ left

/-- Where the bytes of a file are answered alike, so is every question about it. -/
theorem answer_ask_congr {f : File} {a b : Archive} (h : f.bytes.answer a = f.bytes.answer b)
    (q : Question) : (f.ask q).answer a = (f.ask q).answer b := by
  have bytes : f.bytes.SeesOnly f := fun a b h =>
    ⟨h, by rw [answer_bytes_again, answer_bytes_again, h]⟩
  exact (modular_ask f.seesOnly_modular bytes q a b h).1

end File
end Lineage
