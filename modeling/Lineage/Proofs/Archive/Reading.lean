/-
# Reading

What work does is its answer and the archive that it leaves behind. Reading and
comparing files only adds to what an archive keeps, and what is kept stays. So
work of this kind is steady: once it has succeeded it succeeds again with the
same result, however much else has been kept since (`Work.Steady`). A file that
is read leaves alone what other files hold (`File.answer_text_after`).

Work on files is made of readings, notices and pure steps, so a property that passes
from parts to the whole holds of it as soon as it holds of reading the bytes of the files
(`Work.Modular`). To be steady is such a property.

Key definitions: `Work.answer`, `Work.after`, `Archive.Within`, `Work.Steady`, `Work.Settled`,
`Work.Reads`, `Work.Modular`, `File.OneHandle`.
Key theorems: `Work.Steady.bind`, `File.reads_text`, `File.answer_text_after`.
-/
import Lineage.Range

namespace Lineage

/-! ### Answers -/

namespace Work

variable {α β : Type}

/-- What work answers against an archive. -/
def answer (w : Work α) (a : Archive) : Except Fault α :=
  (w.run a).1

/-- The archive that work leaves behind. -/
def after (w : Work α) (a : Archive) : Archive :=
  (w.run a).2

theorem run_eq (w : Work α) (a : Archive) : w.run a = (w.answer a, w.after a) := rfl

theorem answer_of_run {w : Work α} {a b : Archive} {r : Except Fault α} (h : w.run a = (r, b)) :
    w.answer a = r := congrArg Prod.fst h

theorem after_of_run {w : Work α} {a b : Archive} {r : Except Fault α} (h : w.run a = (r, b)) :
    w.after a = b := congrArg Prod.snd h

@[simp] theorem answer_pure (x : α) (a : Archive) : (pure x : Work α).answer a = .ok x := rfl

@[simp] theorem after_pure (x : α) (a : Archive) : (pure x : Work α).after a = a := rfl

@[simp] theorem answer_get (a : Archive) : (get : Work Archive).answer a = .ok a := rfl

@[simp] theorem after_get (a : Archive) : (get : Work Archive).after a = a := rfl

@[simp] theorem answer_note (n : Notice) (a : Archive) : (note n).answer a = .ok () := rfl

@[simp] theorem answer_lift (e : Except Fault α) (a : Archive) :
    (liftM e : Work α).answer a = e := by
  cases e <;> rfl

@[simp] theorem after_lift (e : Except Fault α) (a : Archive) : (liftM e : Work α).after a = a := by
  cases e <;> rfl

theorem run_bind (w : Work α) (f : α → Work β) (a : Archive) :
    (w >>= f).run a =
      match w.run a with
      | (.ok x, b) => (f x).run b
      | (.error e, b) => (.error e, b) := by
  show (ExceptT.bind w f) a = _
  simp only [ExceptT.bind, ExceptT.mk, ExceptT.run, bind, StateT.bind]
  generalize w a = r
  obtain ⟨r | r, b⟩ := r <;> rfl

theorem answer_bind_ok {w : Work α} {a : Archive} {x : α} (h : w.answer a = .ok x)
    (f : α → Work β) : (w >>= f).answer a = (f x).answer (w.after a) := by
  unfold answer
  rw [run_bind, show w.run a = (.ok x, w.after a) from Prod.ext h rfl]

theorem after_bind_ok {w : Work α} {a : Archive} {x : α} (h : w.answer a = .ok x)
    (f : α → Work β) : (w >>= f).after a = (f x).after (w.after a) := by
  unfold after
  rw [run_bind, show w.run a = (.ok x, w.after a) from Prod.ext h rfl]

theorem answer_bind_error {w : Work α} {a : Archive} {e : Fault} (h : w.answer a = .error e)
    (f : α → Work β) : (w >>= f).answer a = .error e := by
  unfold answer
  rw [run_bind, show w.run a = (.error e, w.after a) from Prod.ext h rfl]

theorem after_bind_error {w : Work α} {a : Archive} {e : Fault} (h : w.answer a = .error e)
    (f : α → Work β) : (w >>= f).after a = w.after a := by
  unfold after
  rw [run_bind, show w.run a = (.error e, w.after a) from Prod.ext h rfl]

/-- What work in two parts answers comes from an answer of the first part. -/
theorem exists_of_answer_bind {w : Work α} {f : α → Work β} {a : Archive} {y : β}
    (h : (w >>= f).answer a = .ok y) :
    ∃ x, w.answer a = .ok x ∧ (f x).answer (w.after a) = .ok y := by
  cases hw : w.answer a with
  | ok x => exact ⟨x, rfl, by rwa [answer_bind_ok hw] at h⟩
  | error e => rw [answer_bind_error hw] at h; cases h

theorem of_answer_require {condition : Prop} [Decidable condition] {otherwise : Misuse}
    {w : Work α} {a : Archive} {x : α}
    (h : (require condition otherwise >>= fun _ => w).answer a = .ok x) :
    condition ∧ w.answer a = .ok x := by
  unfold require at h
  split at h
  next holds => exact ⟨holds, by rwa [pure_bind] at h⟩
  next => cases h

end Work

/-! ### What is kept -/

/-- Whatever the first archive keeps, the second one keeps as well. -/
structure Archive.Within (a b : Archive) : Prop where
  bytes : ∀ h v, a.bytes h = some v → b.bytes h = some v
  diffs : ∀ h v, a.diffs h = some v → b.diffs h = some v

theorem Archive.bytes_keepBytes (a : Archive) (handle : Nat) (bytes : List UInt8) (h : Nat) :
    (a.keepBytes handle bytes).bytes h = if h = handle then some bytes else a.bytes h := rfl

theorem Archive.diffs_keepDiff (a : Archive) (handle : Nat) (diff : List LineChange) (h : Nat) :
    (a.keepDiff handle diff).diffs h = if h = handle then some diff else a.diffs h := rfl

namespace Archive.Within

theorem refl (a : Archive) : a.Within a :=
  ⟨fun _ _ h => h, fun _ _ h => h⟩

theorem trans {a b c : Archive} (h : a.Within b) (h' : b.Within c) : a.Within c :=
  ⟨fun k v hv => h'.bytes k v (h.bytes k v hv), fun k v hv => h'.diffs k v (h.diffs k v hv)⟩

theorem note (n : Notice) (a : Archive) : a.Within ((Work.note n).after a) :=
  ⟨fun _ _ h => h, fun _ _ h => h⟩

theorem keepBytes {a : Archive} {handle : Nat} (h : a.bytes handle = none) (bytes : List UInt8) :
    a.Within (a.keepBytes handle bytes) where
  bytes k v hv := by
    have hk : k ≠ handle := fun e => by rw [e, h] at hv; cases hv
    rw [bytes_keepBytes, if_neg hk, hv]
  diffs _ _ hv := hv

theorem keepDiff {a : Archive} {handle : Nat} (h : a.diffs handle = none)
    (diff : List LineChange) : a.Within (a.keepDiff handle diff) where
  bytes _ _ hv := hv
  diffs k v hv := by
    have hk : k ≠ handle := fun e => by rw [e, h] at hv; cases hv
    rw [diffs_keepDiff, if_neg hk, hv]

end Archive.Within

/-- Work that only adds to what is kept and that, once it has succeeded, succeeds
again with the same result, whatever else has been kept since. -/
structure Work.Steady {α : Type} (w : Work α) : Prop where
  keeps : ∀ a : Archive, a.Within (w.after a)
  repeats : ∀ {a : Archive} {x : α}, w.answer a = .ok x →
    ∀ {b : Archive}, (w.after a).Within b → w.answer b = .ok x

/-- Work that succeeds with one result, whatever else is kept. -/
def Work.Settled {α : Type} (w : Work α) (a : Archive) (x : α) : Prop :=
  ∀ b, a.Within b → w.answer b = .ok x

/-- Steady work that leaves the disk and the kept diffs as they are. -/
structure Work.Reads {α : Type} (w : Work α) : Prop extends w.Steady where
  disk : ∀ a : Archive, (w.after a).disk = a.disk
  diffs : ∀ a : Archive, (w.after a).diffs = a.diffs

namespace Work

variable {α β : Type}

theorem Settled.answer {w : Work α} {a : Archive} {x : α} (h : w.Settled a x) :
    w.answer a = .ok x :=
  h a (.refl a)

theorem Settled.mono {w : Work α} {a b : Archive} {x : α} (h : w.Settled a x) (hb : a.Within b) :
    w.Settled b x :=
  fun c hc => h c (hb.trans hc)

theorem Steady.settled {w : Work α} (hw : w.Steady) {a : Archive} {x : α}
    (h : w.answer a = .ok x) : w.Settled (w.after a) x :=
  fun _ hb => hw.repeats h hb

theorem Reads.pure (x : α) : Reads (Pure.pure x : Work α) :=
  ⟨⟨fun a => .refl a, fun h _ _ => h⟩, fun _ => rfl, fun _ => rfl⟩

theorem Reads.throw (e : Fault) : Reads (MonadExcept.throw e : Work α) :=
  ⟨⟨fun a => .refl a, fun h => by cases h⟩, fun _ => rfl, fun _ => rfl⟩

theorem Reads.note (n : Notice) : Reads (note n) :=
  ⟨⟨fun a => .note n a, fun h _ _ => h⟩, fun _ => rfl, fun _ => rfl⟩

/-- Steady work after steady work is steady. -/
theorem Steady.bind {w : Work α} {f : α → Work β} (hw : w.Steady) (hf : ∀ x, (f x).Steady) :
    (w >>= f).Steady where
  keeps a := by
    cases h : w.answer a with
    | ok x =>
      rw [after_bind_ok h]
      exact (hw.keeps a).trans ((hf x).keeps _)
    | error e =>
      rw [after_bind_error h]
      exact hw.keeps a
  repeats {a y} h b hb := by
    obtain ⟨x, hx, hy⟩ := exists_of_answer_bind h
    rw [after_bind_ok hx] at hb
    have again : w.answer b = .ok x := hw.repeats hx (((hf x).keeps _).trans hb)
    rw [answer_bind_ok again]
    exact (hf x).repeats hy (hb.trans (hw.keeps b))

/-- Reading after reading is reading. -/
theorem Reads.bind {w : Work α} {f : α → Work β} (hw : w.Reads) (hf : ∀ x, (f x).Reads) :
    (w >>= f).Reads where
  toSteady := hw.toSteady.bind fun x => (hf x).toSteady
  disk a := by
    cases h : w.answer a with
    | ok x => rw [after_bind_ok h, (hf x).disk, hw.disk]
    | error e => rw [after_bind_error h, hw.disk]
  diffs a := by
    cases h : w.answer a with
    | ok x => rw [after_bind_ok h, (hf x).diffs, hw.diffs]
    | error e => rw [after_bind_error h, hw.diffs]

end Work

/-! ### Work in parts -/

/-- A property of work that work in parts has as soon as the parts have it. A notice that
is no warning has it as well. -/
structure Work.Modular (P : ∀ α : Type, Work α → Prop) : Prop where
  pure : ∀ {α : Type} (x : α), P α (Pure.pure x)
  throw : ∀ {α : Type} (e : Fault), P α (MonadExcept.throw e)
  note : ∀ n : Notice, n.level ≠ .warning → P Unit (Work.note n)
  bind : ∀ {α β : Type} {w : Work α} {f : α → Work β},
    P α w → (∀ x, P β (f x)) → P β (w >>= f)

namespace Work

theorem Steady.modular : Modular fun _ w => w.Steady where
  pure x := (Reads.pure x).toSteady
  throw e := (Reads.throw e).toSteady
  note n _ := (Reads.note n).toSteady
  bind := Steady.bind

theorem Reads.modular : Modular fun _ w => w.Reads where
  pure := Reads.pure
  throw := Reads.throw
  note n _ := Reads.note n
  bind := Reads.bind

namespace Modular

variable {P : ∀ α : Type, Work α → Prop} (hP : Modular P)
include hP

theorem lift {α : Type} (e : Except Fault α) : P α (liftM e) := by
  cases e with
  | ok x => exact hP.pure x
  | error e => exact hP.throw e

theorem require (condition : Prop) [Decidable condition] (otherwise : Misuse) :
    P Unit (Work.require condition otherwise) := by
  unfold Work.require
  split
  · exact hP.pure ()
  · exact hP.throw _

end Modular
end Work

/-! ### Files -/

namespace File

/-- The handle under which the bytes of a file on disk are kept. -/
def handle? (f : File) : Option Nat :=
  match f.holder with
  | .memory _ => none
  | .disk handle _ _ => some handle

theorem answer_readDisk (path : String) (a : Archive) :
    (readDisk path).answer a = a.disk.read path := by
  unfold readDisk
  rw [Work.answer_bind_ok (Work.answer_note _ a), Work.answer_bind_ok (Work.answer_get _),
    Work.answer_lift]
  rfl

theorem after_readDisk (path : String) (a : Archive) :
    (readDisk path).after a = (Work.note (.reading path)).after a := by
  unfold readDisk
  rw [Work.after_bind_ok (Work.answer_note _ a), Work.after_bind_ok (Work.answer_get _),
    Work.after_lift, Work.after_get]

/-- The archive once it is noted that a file is read. -/
def noting (f : File) (root : String) (a : Archive) : Archive :=
  (Work.note (.reading (Path.join root f.version.path))).after a

section Disk

variable {f : File} {handle : Nat} {root : String} {encoding : Encoding} {a : Archive}

theorem run_bytes_kept (hf : f.holder = .disk handle root encoding) {bytes : List UInt8}
    (h : a.bytes handle = some bytes) : f.bytes.run a = (.ok bytes, a) := by
  unfold File.bytes
  rw [hf]
  simp only [Work.run_eq, Work.after_bind_ok (Work.answer_get a),
    Work.answer_bind_ok (Work.answer_get a), Work.after_get, h, Work.answer_pure, Work.after_pure]

/-- Bytes that are not kept are read from the disk, and kept if that succeeds. -/
theorem run_bytes_unkept (hf : f.holder = .disk handle root encoding)
    (h : a.bytes handle = none) :
    f.bytes.run a =
      (readDisk (Path.join root f.version.path) >>= fun bytes => do
        modify fun a => a.keepBytes handle bytes
        pure bytes : Work (List UInt8)).run a := by
  unfold File.bytes
  rw [hf]
  simp only [Work.run_eq, Work.after_bind_ok (Work.answer_get a),
    Work.answer_bind_ok (Work.answer_get a), Work.after_get, h]

theorem run_bytes_found (hf : f.holder = .disk handle root encoding) (h : a.bytes handle = none)
    {bytes : List UInt8} (hr : a.disk.read (Path.join root f.version.path) = .ok bytes) :
    f.bytes.run a = (.ok bytes, (noting f root a).keepBytes handle bytes) := by
  have answer := (answer_readDisk _ a).trans hr
  rw [run_bytes_unkept hf h, Work.run_eq, Work.answer_bind_ok answer, Work.after_bind_ok answer,
    after_readDisk]
  rfl

theorem run_bytes_lost (hf : f.holder = .disk handle root encoding) (h : a.bytes handle = none)
    {e : Fault} (hr : a.disk.read (Path.join root f.version.path) = .error e) :
    f.bytes.run a = (.error e, noting f root a) := by
  have answer := (answer_readDisk _ a).trans hr
  rw [run_bytes_unkept hf h, Work.run_eq, Work.answer_bind_error answer,
    Work.after_bind_error answer, after_readDisk]
  rfl

/-- The three ways in which the bytes of a file on disk are read. -/
theorem run_bytes (hf : f.holder = .disk handle root encoding) (a : Archive) :
    (∃ bytes, a.bytes handle = some bytes ∧ f.bytes.run a = (.ok bytes, a)) ∨
    (∃ bytes, a.bytes handle = none ∧ a.disk.read (Path.join root f.version.path) = .ok bytes ∧
      f.bytes.run a = (.ok bytes, (noting f root a).keepBytes handle bytes)) ∨
    (∃ e, a.bytes handle = none ∧ a.disk.read (Path.join root f.version.path) = .error e ∧
      f.bytes.run a = (.error e, noting f root a)) := by
  cases hk : a.bytes handle with
  | some bytes => exact .inl ⟨bytes, rfl, run_bytes_kept hf hk⟩
  | none =>
    cases hr : a.disk.read (Path.join root f.version.path) with
    | ok bytes => exact .inr (.inl ⟨bytes, rfl, rfl, run_bytes_found hf hk hr⟩)
    | error e => exact .inr (.inr ⟨e, rfl, rfl, run_bytes_lost hf hk hr⟩)

theorem bytes_after_bytes (hf : f.holder = .disk handle root encoding) {bytes : List UInt8}
    (h : f.bytes.answer a = .ok bytes) : (f.bytes.after a).bytes handle = some bytes := by
  obtain ⟨kept, hk, run⟩ | ⟨found, -, -, run⟩ | ⟨e, -, -, run⟩ := run_bytes hf a
  · rw [Work.answer_of_run run] at h
    rw [Work.after_of_run run, hk, Except.ok.inj h]
  · rw [Work.answer_of_run run] at h
    rw [Work.after_of_run run, Archive.bytes_keepBytes, if_pos rfl, Except.ok.inj h]
  · rw [Work.answer_of_run run] at h
    cases h

/-- Reading bytes keeps what was kept before, and touches neither the disk nor the diffs. -/
theorem after_bytes (hf : f.holder = .disk handle root encoding) (a : Archive) :
    a.Within (f.bytes.after a) ∧ (f.bytes.after a).disk = a.disk ∧
      (f.bytes.after a).diffs = a.diffs := by
  have noted : a.Within (noting f root a) := .note _ a
  obtain ⟨_, -, run⟩ | ⟨found, hk, -, run⟩ | ⟨_, -, -, run⟩ := run_bytes hf a
  · rw [Work.after_of_run run]
    exact ⟨.refl a, rfl, rfl⟩
  · rw [Work.after_of_run run]
    exact ⟨noted.trans (.keepBytes (a := noting f root a) hk found), rfl, rfl⟩
  · rw [Work.after_of_run run]
    exact ⟨noted, rfl, rfl⟩

end Disk

theorem reads_bytes (f : File) : f.bytes.Reads := by
  cases hf : f.holder with
  | memory text =>
    unfold File.bytes
    rw [hf]
    exact .pure _
  | disk handle root encoding =>
    refine ⟨⟨fun a => (after_bytes hf a).1, fun h _ hb => ?_⟩, fun a => (after_bytes hf a).2.1,
      fun a => (after_bytes hf a).2.2⟩
    exact Work.answer_of_run (run_bytes_kept hf (hb.bytes _ _ (bytes_after_bytes hf h)))

section Modular

variable {P : ∀ α : Type, Work α → Prop} (hP : Work.Modular P) {f : File} (bytes : P _ f.bytes)
include hP bytes

theorem modular_isBinary : P _ f.isBinary := by
  unfold isBinary
  split
  · exact hP.pure _
  · exact hP.bind bytes fun _ => hP.pure _

theorem modular_text : P _ f.text := by
  unfold text
  split
  · exact hP.pure _
  · apply hP.bind (modular_isBinary hP bytes)
    intro binary
    cases binary with
    | true => exact hP.bind (hP.throw _) fun _ => hP.bind bytes fun _ => hP.lift _
    | false => exact hP.bind bytes fun _ => hP.lift _

theorem modular_fullLines : P _ f.fullLines :=
  hP.bind (modular_text hP bytes) fun _ => hP.pure _

theorem modular_lines : P _ f.lines :=
  hP.bind (modular_fullLines hP bytes) fun _ => hP.pure _

theorem modular_positionAt (line column tab : Int) : P _ (f.positionAt line column tab) := by
  unfold positionAt
  apply hP.bind (hP.require _ _)
  intro _
  apply hP.bind (hP.require _ _)
  intro _
  split
  · exact hP.bind (modular_fullLines hP bytes) fun _ => hP.pure _
  · exact hP.throw _

theorem modular_positionOf (offset tab : Int) : P _ (f.positionOf offset tab) := by
  unfold positionOf
  apply hP.bind (hP.require _ _)
  intro _
  split
  · exact hP.bind (modular_fullLines hP bytes) fun _ => hP.pure _
  · exact hP.throw _

theorem modular_endOfLine (line tab : Int) : P _ (f.endOfLine line tab) := by
  unfold endOfLine
  apply hP.bind (hP.require _ _)
  intro _
  apply hP.bind (modular_fullLines hP bytes)
  intro lines
  split
  · exact modular_positionOf hP bytes _ _
  · exact hP.pure _

end Modular

theorem reads_text (f : File) : f.text.Reads :=
  modular_text Work.Reads.modular f.reads_bytes

theorem run_isBinary {f : File} {handle : Nat} {root : String} {encoding : Encoding}
    (hf : f.holder = .disk handle root encoding) {a : Archive} {bytes : List UInt8}
    (h : f.bytes.answer a = .ok bytes) :
    f.isBinary.run a = (.ok (looksBinary f.version.path bytes), f.bytes.after a) := by
  unfold isBinary
  rw [hf, Work.run_eq, Work.answer_bind_ok h, Work.after_bind_ok h]
  rfl

theorem run_text {f : File} {handle : Nat} {root : String} {encoding : Encoding}
    (hf : f.holder = .disk handle root encoding) {a : Archive} {bytes : List UInt8}
    (h : f.bytes.answer a = .ok bytes) :
    f.text.run a =
      (if looksBinary f.version.path bytes then .error (.binary .content f.name)
        else decoded encoding bytes, f.bytes.after a) := by
  have binary := run_isBinary hf h
  have again : f.bytes.run (f.bytes.after a) = (.ok bytes, f.bytes.after a) :=
    run_bytes_kept hf (bytes_after_bytes hf h)
  unfold text
  rw [hf, Work.run_eq, Work.answer_bind_ok (Work.answer_of_run binary),
    Work.after_bind_ok (Work.answer_of_run binary), Work.after_of_run binary]
  cases looksBinary f.version.path bytes with
  | true => rfl
  | false =>
    simp only [Bool.false_eq_true, if_false, Work.answer_bind_ok (Work.answer_of_run again),
      Work.after_bind_ok (Work.answer_of_run again), Work.after_of_run again, Work.answer_lift,
      Work.after_lift]

theorem run_text_lost {f : File} {handle : Nat} {root : String} {encoding : Encoding}
    (hf : f.holder = .disk handle root encoding) {a : Archive} {e : Fault}
    (h : f.bytes.answer a = .error e) : f.text.run a = (.error e, f.bytes.after a) := by
  have binary : f.isBinary.run a = (.error e, f.bytes.after a) := by
    unfold isBinary
    rw [hf, Work.run_eq, Work.answer_bind_error h, Work.after_bind_error h]
  unfold text
  rw [hf, Work.run_eq, Work.answer_bind_error (Work.answer_of_run binary),
    Work.after_bind_error (Work.answer_of_run binary), Work.after_of_run binary]

/-- The bytes of a file on disk that has a text are found, and they are not binary. -/
theorem exists_bytes_of_text {f : File} {handle : Nat} {root : String} {encoding : Encoding}
    (hf : f.holder = .disk handle root encoding) {a : Archive} {text : List Char}
    (h : f.text.answer a = .ok text) :
    ∃ bytes, f.bytes.answer a = .ok bytes ∧ looksBinary f.version.path bytes = false ∧
      decoded encoding bytes = .ok text := by
  cases hb : f.bytes.answer a with
  | ok bytes =>
    rw [Work.answer_of_run (run_text hf hb)] at h
    cases hl : looksBinary f.version.path bytes with
    | true => rw [hl] at h; cases h
    | false => exact ⟨bytes, rfl, hl, by simpa [hl] using h⟩
  | error e =>
    rw [Work.answer_of_run (run_text_lost hf hb)] at h
    cases h

/-- A file that has a text is not binary, and the test for that reads what the text needs. -/
theorem run_isBinary_of_text {f : File} {a : Archive} {text : List Char}
    (h : f.text.answer a = .ok text) : f.isBinary.run a = (.ok false, f.text.after a) := by
  cases hf : f.holder with
  | memory _ =>
    unfold isBinary File.text
    rw [hf]
    rfl
  | disk handle root encoding =>
    obtain ⟨bytes, hb, hl, -⟩ := exists_bytes_of_text hf h
    rw [run_isBinary hf hb, hl, Work.after_of_run (run_text hf hb)]

theorem run_text_again {f : File} {a : Archive} {text : List Char}
    (h : f.text.answer a = .ok text) :
    f.text.run (f.text.after a) = (.ok text, f.text.after a) := by
  cases hf : f.holder with
  | memory _ =>
    unfold File.text at h ⊢
    rw [hf] at h ⊢
    rw [Work.answer_pure] at h
    rw [Except.ok.inj h]
    rfl
  | disk handle root encoding =>
    obtain ⟨bytes, hb, hl, hd⟩ := exists_bytes_of_text hf h
    rw [Work.after_of_run (run_text hf hb)]
    have again : f.bytes.run (f.bytes.after a) = (.ok bytes, f.bytes.after a) :=
      run_bytes_kept hf (bytes_after_bytes hf hb)
    rw [run_text hf (Work.answer_of_run again), hl, hd, Work.after_of_run again]
    rfl

/-- Two files that share a handle are one file. -/
def OneHandle (f g : File) : Prop :=
  f.handle? = g.handle? → f.handle? ≠ none → f = g

theorem after_text (f : File) (a : Archive) : f.text.after a = f.bytes.after a := by
  cases hf : f.holder with
  | memory _ =>
    unfold File.text File.bytes
    rw [hf]
    rfl
  | disk handle root encoding =>
    cases hb : f.bytes.answer a with
    | ok bytes => exact Work.after_of_run (run_text hf hb)
    | error e => exact Work.after_of_run (run_text_lost hf hb)

/-- Reading a file leaves the bytes that are kept under other handles as they were. -/
theorem bytes_after_text {f : File} {handle : Nat} (h : f.handle? ≠ some handle) (a : Archive) :
    (f.text.after a).bytes handle = a.bytes handle := by
  rw [after_text]
  cases hf : f.holder with
  | memory _ =>
    unfold File.bytes
    rw [hf]
    rfl
  | disk own root encoding =>
    have other : handle ≠ own := fun e => h (by rw [handle?, hf, e])
    obtain ⟨_, -, run⟩ | ⟨_, -, -, run⟩ | ⟨_, -, -, run⟩ := run_bytes hf a
    · rw [Work.after_of_run run]
    · rw [Work.after_of_run run, Archive.bytes_keepBytes, if_neg other]
      rfl
    · rw [Work.after_of_run run]
      rfl

theorem answer_bytes_congr {f : File} {a b : Archive} (hd : b.disk = a.disk)
    (hb : ∀ handle, f.handle? = some handle → b.bytes handle = a.bytes handle) :
    f.bytes.answer b = f.bytes.answer a := by
  cases hf : f.holder with
  | memory _ =>
    unfold File.bytes
    rw [hf]
    rfl
  | disk handle root encoding =>
    have kept := hb handle (by rw [handle?, hf])
    obtain ⟨_, hk, run⟩ | ⟨_, hk, hr, run⟩ | ⟨_, hk, hr, run⟩ := run_bytes hf a
    · rw [Work.answer_of_run run, Work.answer_of_run (run_bytes_kept hf (kept.trans hk))]
    · rw [← hd] at hr
      rw [Work.answer_of_run run, Work.answer_of_run (run_bytes_found hf (kept.trans hk) hr)]
    · rw [← hd] at hr
      rw [Work.answer_of_run run, Work.answer_of_run (run_bytes_lost hf (kept.trans hk) hr)]

/-- What a file holds depends on the disk and on the bytes kept under its handle. -/
theorem answer_text_congr {f : File} {a b : Archive} (hd : b.disk = a.disk)
    (hb : ∀ handle, f.handle? = some handle → b.bytes handle = a.bytes handle) :
    f.text.answer b = f.text.answer a := by
  cases hf : f.holder with
  | memory _ =>
    unfold File.text
    rw [hf]
    rfl
  | disk handle root encoding =>
    have bytes := answer_bytes_congr hd hb
    cases ha : f.bytes.answer a with
    | ok found =>
      rw [Work.answer_of_run (run_text hf ha), Work.answer_of_run (run_text hf (bytes.trans ha))]
    | error e =>
      rw [Work.answer_of_run (run_text_lost hf ha),
        Work.answer_of_run (run_text_lost hf (bytes.trans ha))]

/-- What one file holds stays the same when another one is read. -/
theorem answer_text_after {f g : File} (apart : f.OneHandle g) {a : Archive} {text : List Char}
    (h : f.text.answer a = .ok text) : f.text.answer (g.text.after a) = .ok text := by
  by_cases same : f = g
  · rw [← same]
    exact Work.answer_of_run (run_text_again h)
  · rw [answer_text_congr (g.reads_text.disk a), h]
    intro handle hf
    refine bytes_after_text (fun hg => same (apart (hf.trans hg.symm) ?_)) a
    rw [hf]
    exact Option.some_ne_none handle

theorem reads_lines (f : File) : f.lines.Reads :=
  modular_lines Work.Reads.modular f.reads_bytes

theorem reads_positionAt (f : File) (line column tab : Int) :
    (f.positionAt line column tab).Reads :=
  modular_positionAt Work.Reads.modular f.reads_bytes line column tab

/-! ### Looking up -/

section Look

variable {f : File} {a : Archive} {text : List Char}

theorem answer_fullLines (h : f.text.answer a = .ok text) :
    f.fullLines.answer a = .ok (Text.splitLines text) := by
  unfold fullLines
  rw [Work.answer_bind_ok h, Work.answer_pure]

theorem answer_lines (h : f.text.answer a = .ok text) :
    f.lines.answer a = .ok ((Text.splitLines text).map Text.stripEnd) := by
  unfold lines
  rw [Work.answer_bind_ok (answer_fullLines h), Work.answer_pure]

theorem answer_positionAt (h : f.text.answer a = .ok text) {line column tab : Int}
    (hline : 1 ≤ line) (hcolumn : 1 ≤ column) (htab : 1 ≤ tab) :
    (f.positionAt line column tab).answer a =
      .ok ((Text.placeAt tab (Text.splitLines text) line column).map fun place =>
        ⟨place, f, tab, htab⟩) := by
  unfold positionAt Work.require
  rw [if_pos hline, if_pos hcolumn, dif_pos htab, pure_bind, pure_bind,
    Work.answer_bind_ok (answer_fullLines h), Work.answer_pure]

theorem answer_positionOf (h : f.text.answer a = .ok text) {offset tab : Int}
    (hoffset : 0 ≤ offset) (htab : 1 ≤ tab) :
    (f.positionOf offset tab).answer a =
      .ok ((Text.placeOf tab (Text.splitLines text) offset).map fun place =>
        ⟨place, f, tab, htab⟩) := by
  unfold positionOf Work.require
  rw [if_pos hoffset, dif_pos htab, pure_bind, Work.answer_bind_ok (answer_fullLines h),
    Work.answer_pure]

variable {p : Position}

theorem exists_of_positionAt (read : f.text.answer a = .ok text) {line column tab : Int}
    (h : (f.positionAt line column tab).answer a = .ok (some p)) :
    ∃ (place : Text.Place) (htab : 1 ≤ tab),
      Text.placeAt tab (Text.splitLines text) line column = some place ∧
        p = ⟨place, f, tab, htab⟩ := by
  obtain ⟨hline, rest⟩ := Work.of_answer_require h
  obtain ⟨hcolumn, rest⟩ := Work.of_answer_require rest
  by_cases htab : 1 ≤ tab
  · rw [answer_positionAt read hline hcolumn htab] at h
    obtain ⟨place, found, rfl⟩ := Option.map_eq_some_iff.mp (Except.ok.inj h)
    exact ⟨place, htab, found, rfl⟩
  · rw [dif_neg htab] at rest
    cases rest

theorem exists_of_positionOf (read : f.text.answer a = .ok text) {offset tab : Int}
    (h : (f.positionOf offset tab).answer a = .ok (some p)) :
    ∃ (place : Text.Place) (htab : 1 ≤ tab),
      Text.placeOf tab (Text.splitLines text) offset = some place ∧ p = ⟨place, f, tab, htab⟩ := by
  obtain ⟨hoffset, rest⟩ := Work.of_answer_require h
  by_cases htab : 1 ≤ tab
  · rw [answer_positionOf read hoffset htab] at h
    obtain ⟨place, found, rfl⟩ := Option.map_eq_some_iff.mp (Except.ok.inj h)
    exact ⟨place, htab, found, rfl⟩
  · rw [dif_neg htab] at rest
    cases rest

theorem exists_of_endOfLine (read : f.text.answer a = .ok text) {line tab : Int}
    (h : (f.endOfLine line tab).answer a = .ok (some p)) :
    ∃ (offset : Int) (place : Text.Place) (htab : 1 ≤ tab),
      Text.lastOffset (Text.splitLines text) line = some offset ∧
        Text.placeOf tab (Text.splitLines text) offset = some place ∧
          p = ⟨place, f, tab, htab⟩ := by
  obtain ⟨-, rest⟩ := Work.of_answer_require h
  rw [Work.answer_bind_ok (answer_fullLines read)] at rest
  -- the text is read again for the look-up by offset
  have again : f.text.answer (f.fullLines.after a) = .ok text := by
    unfold fullLines
    rw [Work.after_bind_ok read, Work.after_pure]
    exact Work.answer_of_run (run_text_again read)
  cases last : Text.lastOffset (Text.splitLines text) line with
  | none =>
    rw [last] at rest
    cases rest
  | some offset =>
    rw [last] at rest
    obtain ⟨place, htab, found, rfl⟩ := exists_of_positionOf again rest
    exact ⟨offset, place, htab, rfl, found, rfl⟩

end Look

end File

theorem Range.modular_content {P : ∀ α : Type, Work α → Prop} (hP : Work.Modular P) {r : Range}
    (bytes : P _ r.file.bytes) : P _ r.content :=
  hP.bind (File.modular_text hP bytes) fun _ => hP.pure _

end Lineage
