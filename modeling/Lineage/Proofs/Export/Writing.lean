/-
# Texts are read as they were written

Whether a text can be written to a file depends on the path and on the disk, not on the text
(`answer_writeText`), so a text that is written to its end is saved wherever any text could be
(`answer_save`). What was written is in the file, also if it was not all (`read_save`), and is
read again with plain line ends (`answer_readText`). To tell a fault in the log changes no
answer.

Key theorems: `Work.answer_telling`, `Export.read_writeText`, `Export.answer_save`,
`Export.read_save`, `Export.answer_readText`.
-/
import Lineage.Export
import Lineage.Proofs.Archive.Reading
import Lineage.Proofs.Disk.Writing
import Lineage.Proofs.Encoding.Utf8

namespace Lineage

/-! ### Faults that are told, and the disk -/

namespace Work

variable {α : Type}

theorem run_telling (tell : Fault → Notice) (w : Work α) (a : Archive) :
    (telling tell w).run a =
      match w.run a with
      | (.ok x, b) => (.ok x, b)
      | (.error e, b) => (.error e, (note (tell e)).after b) := by
  show (telling tell w) a = _
  simp only [telling, tryCatch, tryCatchThe, MonadExceptOf.tryCatch, ExceptT.tryCatch, ExceptT.mk,
    bind, StateT.bind, ExceptT.run]
  generalize w a = r
  obtain ⟨r | r, b⟩ := r <;> rfl

theorem answer_telling (tell : Fault → Notice) (w : Work α) (a : Archive) :
    (telling tell w).answer a = w.answer a := by
  rw [answer, run_telling, run_eq]
  cases w.answer a <;> rfl

theorem disk_telling (tell : Fault → Notice) (w : Work α) (a : Archive) :
    ((telling tell w).after a).disk = (w.after a).disk := by
  rw [after, run_telling, run_eq]
  cases w.answer a <;> rfl

theorem answer_onDisk (change : Disk → Except Fault Disk) (a : Archive) :
    (onDisk change).answer a = (change a.disk).map fun _ => () := by
  unfold onDisk
  rw [answer_bind_ok (answer_get a), after_get]
  cases h : change a.disk with
  | ok d => rfl
  | error e => rfl

theorem after_onDisk {change : Disk → Except Fault Disk} {a : Archive} {d : Disk}
    (h : change a.disk = .ok d) : (onDisk change).after a = { a with disk := d } := by
  unfold onDisk
  rw [after_bind_ok (answer_get a), after_get, h]
  rfl

end Work

/-- Whether bytes can be written does not depend on the bytes. -/
theorem Disk.write_congr (d : Disk) (path : String) (bytes bytes' : List UInt8) :
    (d.write path bytes).map (fun _ => ()) = (d.write path bytes').map fun _ => () := by
  unfold write
  cases d.lastStep path with
  | error e => rfl
  | ok step =>
    simp only [bind, Except.bind]
    split
    · rfl
    · split
      · rfl
      · split <;> rfl

namespace Export

/-! ### Texts -/

/-- Makes the directory of a file if it is missing. -/
def makeWay (path : String) : Work Unit := do
  let above := Path.directory path.toList
  if above ≠ [] && !(← get).disk.exists? (String.ofList above) then makeDirectories above

theorem writeText_eq (path : String) (text : List Char) :
    writeText path text =
      makeWay path >>= fun _ => Work.onDisk fun d => d.write path (Encoding.Utf8.encode text) := by
  unfold writeText makeWay
  simp only [bind_assoc]
  congr 1
  funext a
  split
  · rfl
  · exact (pure_bind _ _).symm

/-- Whether a text can be written does not depend on the text. -/
theorem answer_writeText (path : String) (text text' : List Char) (a : Archive) :
    (writeText path text).answer a = (writeText path text').answer a := by
  rw [writeText_eq, writeText_eq]
  cases h : (makeWay path).answer a with
  | error e => rw [Work.answer_bind_error h, Work.answer_bind_error h]
  | ok _ =>
    rw [Work.answer_bind_ok h, Work.answer_bind_ok h, Work.answer_onDisk, Work.answer_onDisk,
      Disk.write_congr]

/-- A file holds the bytes of the text that was written to it. -/
theorem read_writeText {path : String} {text : List Char} {a : Archive}
    (h : (writeText path text).answer a = .ok ()) :
    ((writeText path text).after a).disk.read path = .ok (Encoding.Utf8.encode text) := by
  rw [writeText_eq] at h ⊢
  obtain ⟨_, way, h⟩ := Work.exists_of_answer_bind h
  rw [Work.after_bind_ok way]
  rw [Work.answer_onDisk] at h
  cases written : ((makeWay path).after a).disk.write path (Encoding.Utf8.encode text) with
  | error e => rw [written] at h; cases h
  | ok d =>
    rw [Work.after_onDisk written]
    exact Disk.read_write written

section Save

variable {path : String} {w : Written} {a : Archive}

/-- A text that is written to its end is saved wherever any text can be written. -/
theorem answer_save (ends : w.stop = none) (tell : Fault → Notice) (notice : Notice) :
    (save tell notice path w).answer a = (writeText path []).answer a := by
  unfold save finish
  rw [Work.answer_telling, answer_writeText path [] w.text, ends]
  cases h : (writeText path w.text).answer a with
  | error e => rw [Work.answer_bind_error h]
  | ok _ => rw [Work.answer_bind_ok h, Work.answer_note]

theorem disk_finish (notice : Notice) (w : Written) (a : Archive) :
    ((finish notice w).after a).disk = a.disk := by
  unfold finish
  split <;> rfl

/-- What was written is in the file, also if the text was not written to its end. -/
theorem read_save (writable : (writeText path []).answer a = .ok ()) (tell : Fault → Notice)
    (notice : Notice) (w : Written) :
    ((save tell notice path w).after a).disk.read path = .ok (Encoding.Utf8.encode w.text) := by
  rw [answer_writeText path [] w.text] at writable
  unfold save
  rw [Work.disk_telling, Work.after_bind_ok writable, disk_finish, read_writeText writable]

theorem writable_of_save {tell : Fault → Notice} {notice : Notice}
    (saved : (save tell notice path w).answer a = .ok ()) :
    (writeText path []).answer a = .ok () := by
  unfold save at saved
  rw [Work.answer_telling] at saved
  obtain ⟨_, written, -⟩ := Work.exists_of_answer_bind saved
  rw [answer_writeText path [] w.text, written]

end Save

theorem plainLineEnds_eq_self {text : List Char} (h : '\r' ∉ text) : plainLineEnds text = text := by
  induction text with
  | nil => rfl
  | cons c rest ih =>
    obtain ⟨other, h⟩ := List.ne_and_not_mem_of_not_mem_cons h
    rw [plainLineEnds, ih h]
    · exact fun _ same _ => other same.symm
    · exact fun same => other same.symm

/-- The text of a file is what its bytes encode, with plain line ends. -/
theorem answer_readText {path : String} {text : List Char} {a : Archive}
    (h : a.disk.read path = .ok (Encoding.Utf8.encode text)) :
    (readText path).answer a = .ok (plainLineEnds text) := by
  unfold readText
  rw [Work.answer_bind_ok (Work.answer_get a), Work.after_get, h]
  show ((liftM (File.decoded .utf8 (Encoding.Utf8.encode text)) : Work (List Char)) >>= _).answer a
    = _
  rw [File.decoded_encode]
  rfl

end Export
end Lineage
