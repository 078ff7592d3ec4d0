/-
# What is kept never drifts

In the course of time the disk changes, files are asked about and changes are compared, in any
order, and each of these deeds may fail. The bytes that are kept of a file are those that the disk
held when they were read first: a deed leaves them as they are, or finds none and keeps what the
disk holds (`Deed.keptFrom`), and so it is along all deeds (`Archive.LeadsTo.exists_reading`). As
long as none are kept every answer is what the disk gives now. A diff that is kept was computed by
its change from texts that are settled since, so it is the diff of the lines that are read at any
later time (`Change.Sourced.lines`).

Key definitions: `Deed`, `Archive.LeadsTo`, `File.KeptFrom`, `File.Undrifting`, `Change.Undrifting`.
Key theorems: `Deed.keptFrom`, `Archive.LeadsTo.exists_reading`, `Archive.LeadsTo.sourced`,
`Change.Sourced.lines`, `Archive.LeadsTo.nothing_drifts`.
-/
import Lineage.Proofs.Archive.Asking
import Lineage.Proofs.Archive.Settling
import Mathlib.Logic.Relation

namespace Lineage

/-- Something that happens: the disk changes, a file is asked about, or a change is compared. -/
inductive Deed where
  | disk (change : Disk → Except Fault Disk)
  | ask (f : File) (q : File.Question)
  | compare (c : Change)

namespace Deed

/-- The archive after a deed, which may have failed. -/
def after : Deed → Archive → Archive
  | .disk change, a => (Work.onDisk change).after a
  | .ask f q, a => (f.ask q).after a
  | .compare c, a => c.diff.after a

/-- The file or change of a deed is in a scope. -/
def Within (o : Scope) : Deed → Prop
  | .disk _ => True
  | .ask f _ => o.file f
  | .compare c => o.change c

end Deed

/-- Deeds within a scope lead from one archive to another one. -/
def Archive.LeadsTo (o : Scope) : Archive → Archive → Prop :=
  Relation.ReflTransGen fun a b => ∃ d : Deed, d.Within o ∧ d.after a = b

/-- The archive after deeds in order. -/
def Deed.run (deeds : List Deed) (a : Archive) : Archive :=
  deeds.foldl (fun a d => d.after a) a

theorem Archive.leadsTo_run {o : Scope} {deeds : List Deed} (known : ∀ d ∈ deeds, d.Within o)
    (a : Archive) : a.LeadsTo o (Deed.run deeds a) := by
  induction deeds generalizing a with
  | nil => exact .refl
  | cons d deeds ih =>
    obtain ⟨first, others⟩ := List.forall_mem_cons.mp known
    exact .head ⟨d, first, rfl⟩ (ih others (d.after a))

/-- Nothing has been read or compared yet of what is in a scope. -/
structure Archive.Untouched (o : Scope) (a : Archive) : Prop where
  bytes : ∀ f handle, o.file f → f.handle? = some handle → a.bytes handle = none
  diffs : ∀ c, o.change c → a.diffs c.handle = none

/-! ### Bytes -/

/-- From one archive to the next the bytes that are kept of a file stay as they are, or there
were none and the bytes on the disk are kept. -/
def File.KeptFrom (f : File) (a b : Archive) : Prop :=
  ∀ handle root encoding, f.holder = .disk handle root encoding →
    b.bytes handle = a.bytes handle ∨
      ∃ bytes, a.bytes handle = none ∧ a.disk.read (Path.join root f.version.path) = .ok bytes ∧
        b.bytes handle = some bytes

/-- Work that leaves the disk alone and of the files in a scope keeps only what is on it. -/
def Work.Fills {α : Type} (o : Scope) (w : Work α) : Prop :=
  ∀ a, (w.after a).disk = a.disk ∧ ∀ f, o.file f → f.KeptFrom a (w.after a)

theorem File.KeptFrom.of_eq {f : File} {a b : Archive} (h : b.bytes = a.bytes) :
    f.KeptFrom a b :=
  fun handle _ _ _ => .inl (congrFun h handle)

theorem File.KeptFrom.trans {f : File} {a b c : Archive} (h : f.KeptFrom a b)
    (disk : b.disk = a.disk) (h' : f.KeptFrom b c) : f.KeptFrom a c := by
  intro handle root encoding hf
  obtain same | ⟨bytes, none, read, kept⟩ := h handle root encoding hf
  · rw [← same, ← disk]
    exact h' handle root encoding hf
  · obtain same | ⟨_, unkept, -, -⟩ := h' handle root encoding hf
    · exact .inr ⟨bytes, none, read, same.trans kept⟩
    · rw [kept] at unkept
      cases unkept

namespace Work

theorem Fills.modular (o : Scope) : Modular fun _ w => w.Fills o where
  pure _ := fun _ => ⟨rfl, fun _ _ => .of_eq rfl⟩
  throw _ := fun _ => ⟨rfl, fun _ _ => .of_eq rfl⟩
  note _ _ := fun _ => ⟨rfl, fun _ _ => .of_eq rfl⟩
  bind {_ _ w next} hw hnext := by
    intro a
    obtain ⟨disk, kept⟩ := hw a
    cases hx : w.answer a with
    | error e =>
      rw [after_bind_error hx]
      exact ⟨disk, kept⟩
    | ok x =>
      obtain ⟨disk', kept'⟩ := hnext x (w.after a)
      rw [after_bind_ok hx]
      exact ⟨disk'.trans disk, fun f hf => (kept f hf).trans disk (kept' f hf)⟩

end Work

namespace File

theorem handle?_of_disk {f : File} {handle : Nat} {root : String} {encoding : Encoding}
    (hf : f.holder = .disk handle root encoding) : f.handle? = some handle := by
  rw [handle?, hf]

/-- To read the bytes of a file keeps them as the disk has them, and no bytes of other files. -/
theorem fills_bytes {o : Scope} {g : File} (known : o.file g) : g.bytes.Fills o := by
  refine fun a => ⟨g.reads_bytes.disk a, fun f hf handle root encoding holder => ?_⟩
  by_cases shared : g.handle? = some handle
  -- only one file has the handle, and so the disk was asked for the path of this very file
  · have own := handle?_of_disk holder
    obtain rfl : f = g := o.oneFile f g hf known (own.trans shared.symm)
      (by rw [own]; exact Option.some_ne_none _)
    obtain ⟨_, -, run⟩ | ⟨bytes, hk, read, run⟩ | ⟨_, -, -, run⟩ := run_bytes holder a
    · exact .inl (by rw [Work.after_of_run run])
    · refine .inr ⟨bytes, hk, read, ?_⟩
      rw [Work.after_of_run run, Archive.bytes_keepBytes, if_pos rfl]
    · exact .inl (by rw [Work.after_of_run run]; rfl)
  · exact .inl (by rw [← after_text, bytes_after_text shared])

end File

namespace Change

/-- What a comparison leaves behind but for the diff is left behind by reading the lines. -/
theorem bytes_after_diff (c : Change) (hc : c.origin = .compared) (a : Archive) :
    (c.diff.after a = a) ∨
    ((c.diff.after a).disk = (c.bothLines.after a).disk ∧
      (c.diff.after a).bytes = (c.bothLines.after a).bytes) := by
  cases hk : a.diffs c.handle with
  | some kept => exact .inl (Work.after_of_run (run_diff_kept hc hk))
  | none =>
    obtain ⟨_, -, run⟩ | ⟨_, _, -, -, run⟩ | ⟨_, _, -, -, run⟩ := run_diff_unkept hc hk <;>
      rw [Work.after_of_run run] <;> exact .inr ⟨rfl, rfl⟩

theorem fills_diff {o : Scope} {c : Change} (known : o.change c) : c.diff.Fills o := by
  cases hc : c.origin with
  | scripted given =>
    unfold diff
    rw [hc]
    exact (Work.Fills.modular o).pure _
  | compared =>
    intro a
    have lines : c.bothLines.Fills o := modular_bothLines (Work.Fills.modular o) fun f hf =>
      File.fills_bytes (o.file_of_change c known f hf)
    obtain same | ⟨disk, bytes⟩ := bytes_after_diff c hc a
    · rw [same]
      exact ⟨rfl, fun _ _ => .of_eq rfl⟩
    · obtain ⟨disk', kept⟩ := lines a
      exact ⟨disk.trans disk', fun f hf => (kept f hf).trans disk' (.of_eq bytes)⟩

theorem diffs_after_diff {c : Change} {handle : Nat} (other : handle ≠ c.handle) (a : Archive) :
    (c.diff.after a).diffs handle = a.diffs handle := by
  cases hc : c.origin with
  | scripted given =>
    unfold diff
    rw [hc]
    rfl
  | compared =>
    have reading := congrFun (c.reads_bothLines.diffs a) handle
    cases hk : a.diffs c.handle with
    | some kept => rw [Work.after_of_run (run_diff_kept hc hk)]
    | none =>
      obtain ⟨_, -, run⟩ | ⟨_, _, -, -, run⟩ | ⟨_, _, -, -, run⟩ := run_diff_unkept hc hk
      · rw [Work.after_of_run run, reading]
      · rw [Work.after_of_run run, reading]
      · rw [Work.after_of_run run, recorded, Archive.diffs_keepDiff, if_neg other]
        exact reading

end Change

/-! ### One deed -/

namespace Work

/-- What the disk goes through is nothing to what is kept. -/
theorem kept_after_onDisk (change : Disk → Except Fault Disk) (a : Archive) :
    ((onDisk change).after a).bytes = a.bytes ∧ ((onDisk change).after a).diffs = a.diffs := by
  unfold onDisk
  rw [after_bind_ok (answer_get a), after_get]
  cases change a.disk with
  | ok d => exact ⟨rfl, rfl⟩
  | error e => exact ⟨rfl, rfl⟩

end Work

namespace Deed

variable {o : Scope} {d : Deed} {a : Archive}

theorem within_after (d : Deed) (a : Archive) : a.Within (d.after a) := by
  cases d with
  | disk change =>
    obtain ⟨bytes, diffs⟩ := Work.kept_after_onDisk change a
    exact ⟨fun h v hv => (congrFun bytes h).trans hv, fun h v hv => (congrFun diffs h).trans hv⟩
  | ask f q => exact (f.reads_ask q).keeps a
  | compare c => exact c.steady_diff.keeps a

theorem keptFrom (known : d.Within o) {f : File} (hf : o.file f) (a : Archive) :
    f.KeptFrom a (d.after a) := by
  cases d with
  | disk change => exact .of_eq (Work.kept_after_onDisk change a).1
  | ask g q =>
    exact (File.modular_ask (Work.Fills.modular o) (File.fills_bytes known) q a).2 f hf
  | compare c => exact (Change.fills_diff known a).2 f hf

end Deed

theorem Change.Sourced.mono {c : Change} {a b : Archive} (h : c.Sourced a) (within : a.Within b)
    (same : b.diffs c.handle = a.diffs c.handle) : c.Sourced b := by
  intro diff hd
  obtain ⟨before, unkept, computed, left⟩ := h diff (same.symm.trans hd)
  exact ⟨before, unkept, computed, left.trans within⟩

theorem Deed.sourced_after {o : Scope} {d : Deed} {a : Archive} (known : d.Within o) {c : Change}
    (hc : o.change c) (compared : c.origin = .compared) (h : c.Sourced a) :
    c.Sourced (d.after a) := by
  have within := d.within_after a
  cases d with
  | disk change => exact h.mono within (congrFun (Work.kept_after_onDisk change a).2 c.handle)
  | ask f q => exact h.mono within (congrFun ((f.reads_ask q).diffs a) c.handle)
  | compare c' =>
    -- a comparison can keep a diff of this change only if it is a comparison of this change
    by_cases same : c.handle = c'.handle
    · rw [← o.oneChange c c' hc known same]
      exact h.after_diff compared
    · exact h.mono within (Change.diffs_after_diff same a)

/-! ### All deeds -/

namespace Archive.LeadsTo

variable {o : Scope} {start now later : Archive}

theorem within (h : now.LeadsTo o later) : now.Within later := by
  induction h with
  | refl => exact .refl now
  | tail _ next ih =>
    obtain ⟨d, -, rfl⟩ := next
    exact ih.trans (d.within_after _)

/-- Bytes that are kept at the end, and were not at the start, were found on the disk in between. -/
theorem exists_reading (h : start.LeadsTo o now) {f : File} (hf : o.file f) {handle : Nat}
    {root : String} {encoding : Encoding} (holder : f.holder = .disk handle root encoding)
    (unkept : start.bytes handle = none) {bytes : List UInt8}
    (kept : now.bytes handle = some bytes) :
    ∃ moment, start.LeadsTo o moment ∧ moment.LeadsTo o now ∧ moment.bytes handle = none ∧
      moment.disk.read (Path.join root f.version.path) = .ok bytes := by
  induction h with
  | refl =>
    rw [unkept] at kept
    cases kept
  | @tail a b before next ih =>
    obtain ⟨d, known, rfl⟩ := next
    have step : Archive.LeadsTo o a (d.after a) := .single ⟨d, known, rfl⟩
    -- the last deed left the bytes as they were, or it was the one that read them
    obtain same | ⟨found, none, read, now⟩ := Deed.keptFrom known hf a handle root encoding holder
    · obtain ⟨moment, first, rest, none, read⟩ := ih (same.symm.trans kept)
      exact ⟨moment, first, rest.trans step, none, read⟩
    · rw [Option.some.inj (kept.symm.trans now)]
      exact ⟨a, before, step, none, read⟩

theorem sourced (h : start.LeadsTo o now) {c : Change} (hc : o.change c)
    (compared : c.origin = .compared) (unkept : start.diffs c.handle = none) : c.Sourced now := by
  induction h with
  | refl => exact Change.sourced_of_unkept unkept
  | tail _ next ih =>
    obtain ⟨d, known, rfl⟩ := next
    exact Deed.sourced_after known hc compared ih

end Archive.LeadsTo

/-! ### What does not drift -/

/-- What the bytes of a file on disk are to all that is asked about it. Those that are kept were
on the disk when they were read first, and every later answer is determined by them. A reading
of bytes that succeeds keeps them, one that fails keeps nothing, and as long as there are none
every answer is what the disk gives now. -/
structure File.Undrifting (f : File) (handle : Nat) (path : String) (o : Scope)
    (start now : Archive) : Prop where
  origin : ∀ bytes, now.bytes handle = some bytes → ∃ moment, start.LeadsTo o moment ∧
    moment.LeadsTo o now ∧ moment.bytes handle = none ∧ moment.disk.read path = .ok bytes
  determined : ∀ bytes, now.bytes handle = some bytes → ∀ later, now.LeadsTo o later → ∀ q,
    (f.ask q).answer later = (f.ask q).answer (Archive.empty.keepBytes handle bytes)
  found : ∀ bytes, f.bytes.answer now = .ok bytes →
    (f.bytes.after now).bytes handle = some bytes
  lost : ∀ e, f.bytes.answer now = .error e → ∀ d : Deed, d.Within o →
    (d.after now).bytes handle = none
  current : now.bytes handle = none → ∀ q,
    (f.ask q).answer now = (f.ask q).answer { Archive.empty with disk := now.disk }

/-- The lines of a side of a change as its file is read; a missing file has none. -/
def Change.sideLines : Option File → Work (List (List Char))
  | none => pure []
  | some f => f.lines

/-- What a comparison of two files is to later ones. If it fails it keeps no diff, and what it
has returned is returned from then on, and is the diff of the lines that the files have then. -/
structure Change.Undrifting (c : Change) (o : Scope) (now : Archive) : Prop where
  raised : ∀ e, c.diff.answer now = .error e → (c.diff.after now).diffs c.handle = none
  returned : ∀ diff, c.diff.answer now = .ok diff → ∀ later, (c.diff.after now).LeadsTo o later →
    c.diff.answer later = .ok diff ∧ ∃ old new, (sideLines c.old).answer later = .ok old ∧
      (sideLines c.new).answer later = .ok new ∧ diff = lineDiff old new

namespace Change

theorem answer_sideLines {f : Option File} {a : Archive} {text : List Char}
    (h : (sideText f).answer a = .ok text) :
    (sideLines f).answer a = .ok (Text.plainLines text) := by
  cases f with
  | none =>
    obtain rfl : [] = text := Except.ok.inj h
    rfl
  | some f => exact File.answer_lines h

/-- A diff that is kept and was computed by its change is the diff of the lines that are read. -/
theorem Sourced.lines {c : Change} {a : Archive} {diff : List LineChange} (h : c.Sourced a)
    (hc : c.origin = .compared) (kept : a.diffs c.handle = some diff) :
    ∃ old new, (sideLines c.old).answer a = .ok old ∧ (sideLines c.new).answer a = .ok new ∧
      diff = lineDiff old new := by
  obtain ⟨_, _, same, oldText, newText⟩ := h.texts hc kept
  exact ⟨_, _, answer_sideLines oldText.answer, answer_sideLines newText.answer, same⟩

end Change

section Course

variable {o : Scope} {start now : Archive}

theorem File.undrifting (untouched : start.Untouched o) (course : start.LeadsTo o now) {f : File}
    (hf : o.file f) {handle : Nat} {root : String} {encoding : Encoding}
    (holder : f.holder = .disk handle root encoding) :
    f.Undrifting handle (Path.join root f.version.path) o start now where
  origin _ kept := course.exists_reading hf holder
    (untouched.bytes f handle hf (File.handle?_of_disk holder)) kept
  determined bytes kept later onward q := by
    apply File.answer_ask_congr
    have still := File.run_bytes_kept holder (onward.within.bytes handle bytes kept)
    have alone : (Archive.empty.keepBytes handle bytes).bytes handle = some bytes := if_pos rfl
    rw [Work.answer_of_run still, Work.answer_of_run (File.run_bytes_kept holder alone)]
  found _ h := File.bytes_after_bytes holder h
  lost e h d known := by
    obtain ⟨_, -, run⟩ | ⟨_, -, -, run⟩ | ⟨_, unkept, unread, -⟩ := File.run_bytes holder now
    · cases h.symm.trans (Work.answer_of_run run)
    · cases h.symm.trans (Work.answer_of_run run)
    · -- what the deed could keep would have to be on the disk now
      obtain same | ⟨_, -, read, -⟩ := Deed.keptFrom known hf now handle root encoding holder
      · exact same.trans unkept
      · cases unread.symm.trans read
  current unkept q := by
    apply File.answer_ask_congr
    have alone : Archive.bytes { Archive.empty with disk := now.disk } handle = none := rfl
    cases read : now.disk.read (Path.join root f.version.path) with
    | ok bytes =>
      rw [Work.answer_of_run (File.run_bytes_found holder unkept read),
        Work.answer_of_run (File.run_bytes_found holder alone read)]
    | error e =>
      rw [Work.answer_of_run (File.run_bytes_lost holder unkept read),
        Work.answer_of_run (File.run_bytes_lost holder alone read)]

theorem Change.undrifting (untouched : start.Untouched o) (course : start.LeadsTo o now)
    {c : Change} (hc : o.change c) (compared : c.origin = .compared) : c.Undrifting o now where
  raised e h := by
    cases unkept : now.diffs c.handle with
    | none => exact diffs_after_of_error compared unkept h
    | some kept => cases h.symm.trans (Work.answer_of_run (run_diff_kept compared unkept))
  returned diff h later onward := by
    have kept := onward.within.diffs _ _ ((after_diff compared now).2 diff h)
    have whole : start.LeadsTo o later := (course.tail ⟨.compare c, hc, rfl⟩).trans onward
    have sourced := whole.sourced hc compared (untouched.diffs c hc)
    exact ⟨Work.answer_of_run (run_diff_kept compared kept), sourced.lines compared kept⟩

/-- From an archive that has kept nothing of a scope, whatever deeds lead to: no file on disk and
no comparison drifts. -/
theorem Archive.LeadsTo.nothing_drifts (untouched : start.Untouched o)
    (course : start.LeadsTo o now) :
    (∀ f handle root encoding, o.file f → f.holder = .disk handle root encoding →
      f.Undrifting handle (Path.join root f.version.path) o start now) ∧
    ∀ c, o.change c → c.origin = .compared → c.Undrifting o now :=
  ⟨fun _ _ _ _ hf holder => File.undrifting untouched course hf holder,
    fun _ hc compared => Change.undrifting untouched course hc compared⟩

end Course

namespace Deed

/-- A file on disk. -/
def checkedOut : File :=
  ⟨⟨"a", "r1"⟩, .disk 0 "root" .utf8⟩

/-- A change of it to two given lines. -/
def edited : Change :=
  ⟨0, some checkedOut, some ⟨⟨"a", "r2"⟩, .memory ['x', '\n', 'y', '\n']⟩, .compared⟩

/-- The file is missing when it is asked about, and written then. -/
def appearing : List Deed :=
  [.ask checkedOut .text, .disk (·.makeDirectory "root"), .disk (·.write "root/a" [120, 10])]

/-- The file is overwritten, asked about and removed. -/
def vanishing : List Deed :=
  [.disk (·.write "root/a" [121]), .ask checkedOut .binary, .disk (·.remove "root/a")]

end Deed

section Run

open Deed

/-- A file and a diff are what they were when the change was compared. -/
theorem Archive.LeadsTo.nothing_drifts_overwritten :
    (checkedOut.ask .text).answer (run vanishing (edited.diff.after (run appearing .empty))) =
        .ok ['x', '\n'] ∧
      edited.diff.answer (run vanishing (edited.diff.after (run appearing .empty))) =
        .ok [⟨.insert, 2, ['y'], by decide⟩] := by
  let o : Scope := .ofChanges [edited]
    (by simp [edited, checkedOut, Change.files, File.OneHandle, File.handle?]) (by simp)
  have untouched : Archive.empty.Untouched o := ⟨fun _ _ _ _ => rfl, fun _ _ => rfl⟩
  have file : o.file checkedOut := by simp [o, Scope.ofChanges, edited, Change.files]
  have change : o.change edited := List.mem_singleton_self _
  have course : Archive.empty.LeadsTo o (run appearing .empty) :=
    leadsTo_run (by simp [appearing, Deed.Within, file]) _
  have onward : (edited.diff.after (run appearing .empty)).LeadsTo o
      (run vanishing (edited.diff.after (run appearing .empty))) :=
    leadsTo_run (by simp [vanishing, Deed.Within, file]) _
  obtain ⟨files, -⟩ := nothing_drifts untouched (course.tail ⟨.compare edited, change, rfl⟩)
  obtain ⟨-, changes⟩ := nothing_drifts untouched course
  have text := (files checkedOut 0 "root" .utf8 file rfl).determined [120, 10] (by rfl) _ onward
    .text
  have diff := (changes edited change rfl).returned [⟨.insert, 2, ['y'], by decide⟩] (by rfl) _
    onward
  exact ⟨text.trans (by rfl), diff.1⟩

end Run

end Lineage
