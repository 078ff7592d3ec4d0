/-
# Work within a scope

Work in a session reads files and asks for diffs, and what it finds is kept. As long as the
disk stays as it is, what is kept is what would be found in its place: work within a scope
answers in every archive of a session as it did in the first one, whatever was done before,
and it leaves such an archive behind (`Work.Consults`). So work that failed in between
makes no difference.

What files and changes are concerned is said by a scope, in which no two files or changes
share a handle. What has been told before never matters, in or out of a session.

Key definitions: `Scope`, `Archive.Onward`, `Work.Consults`, `Work.Answers`, `Work.Decides`,
`Work.IgnoresLog`.
Key theorems: `Work.Consults.modular`, `File.consults_bytes`, `Change.consults_diff`,
`Change.ignoresLog_diff`.
-/
import Lineage.Proofs.Archive.Comparing

namespace Lineage

/-- The files and changes that a session is about. Handles tell them apart, and the files
of its changes are among its files. -/
structure Scope where
  file : File → Prop
  change : Change → Prop
  oneFile : ∀ f g, file f → file g → f.OneHandle g
  oneChange : ∀ c d, change c → change d → c.handle = d.handle → c = d
  file_of_change : ∀ c, change c → ∀ f ∈ c.files, file f

/-- The scope of changes whose files, and which themselves, are told apart by handles. -/
def Scope.ofChanges (changes : List Change)
    (oneFile : ∀ f ∈ changes.flatMap Change.files, ∀ g ∈ changes.flatMap Change.files,
      f.OneHandle g)
    (oneChange : ∀ c ∈ changes, ∀ d ∈ changes, c.handle = d.handle → c = d) : Scope where
  file f := f ∈ changes.flatMap Change.files
  change c := c ∈ changes
  oneFile f g hf hg := oneFile f hf g hg
  oneChange c d hc hd := oneChange c hc d hd
  file_of_change c hc _ hf := List.mem_flatMap.mpr ⟨c, hc, hf⟩

/-! ### Archives of one session -/

/-- An archive that a session leads to from another one, the base: the disk is the same,
what was kept is kept, what is kept now is what the base answers, and what has been told
since are no warnings. -/
structure Archive.Onward (o : Scope) (base a : Archive) : Prop where
  disk : a.disk = base.disk
  within : base.Within a
  bytes : ∀ f handle kept, o.file f → f.handle? = some handle → a.bytes handle = some kept →
    f.bytes.answer base = .ok kept
  diffs : ∀ c kept, o.change c → c.origin = .compared → a.diffs c.handle = some kept →
    c.diff.answer base = .ok kept
  told : ∃ notices, a.log = base.log ++ notices ∧ ∀ n ∈ notices, n.level ≠ .warning

theorem File.exists_holder {f : File} {handle : Nat} (h : f.handle? = some handle) :
    ∃ root encoding, f.holder = .disk handle root encoding := by
  unfold handle? at h
  split at h
  · cases h
  next _ root encoding hf =>
    cases h
    exact ⟨root, encoding, hf⟩

namespace Archive.Onward

variable {o : Scope} {base a : Archive}

theorem refl (o : Scope) (a : Archive) : a.Onward o a where
  disk := rfl
  within := .refl a
  bytes f handle kept _ own hk := by
    obtain ⟨root, encoding, hf⟩ := File.exists_holder own
    exact Work.answer_of_run (File.run_bytes_kept hf hk)
  diffs c kept _ hc hk := Work.answer_of_run (Change.run_diff_kept hc hk)
  told := ⟨[], (List.append_nil _).symm, fun _ hn => by cases hn⟩

theorem bytes_unkept (h : base.Onward o a) {handle : Nat} (hk : a.bytes handle = none) :
    base.bytes handle = none := by
  apply Option.eq_none_iff_forall_ne_some.mpr
  intro kept hb
  rw [h.within.bytes handle kept hb] at hk
  cases hk

theorem diff_unkept (h : base.Onward o a) {handle : Nat} (hk : a.diffs handle = none) :
    base.diffs handle = none := by
  apply Option.eq_none_iff_forall_ne_some.mpr
  intro kept hb
  rw [h.within.diffs handle kept hb] at hk
  cases hk

theorem note (h : base.Onward o a) {n : Notice} (quiet : n.level ≠ .warning) :
    base.Onward o ((Work.note n).after a) := by
  refine ⟨h.disk, h.within.trans (.note n a), h.bytes, h.diffs, ?_⟩
  obtain ⟨notices, log, quiets⟩ := h.told
  refine ⟨notices ++ [n], ?_, fun n' hn => ?_⟩
  · show a.log ++ [n] = _
    rw [log, List.append_assoc]
  · rcases List.mem_append.mp hn with hn | hn
    · exact quiets n' hn
    · rwa [List.mem_singleton.mp hn]

/-- The bytes that the base answers for a file may be kept. -/
theorem keepBytes (h : base.Onward o a) {f : File} (known : o.file f) {handle : Nat}
    (own : f.handle? = some handle) {bytes : List UInt8}
    (answer : f.bytes.answer base = .ok bytes) (hk : a.bytes handle = none) :
    base.Onward o (a.keepBytes handle bytes) := by
  refine ⟨h.disk, h.within.trans (.keepBytes hk bytes), fun g handle' kept hg own' hk' => ?_,
    h.diffs, h.told⟩
  rw [bytes_keepBytes] at hk'
  by_cases same : handle' = handle
  · rw [if_pos same] at hk'
    have shared : g.handle? = f.handle? := by rw [own', own, same]
    have one : g = f := o.oneFile g f hg known shared (by rw [own']; exact Option.some_ne_none _)
    rw [one, answer, Option.some.inj hk']
  · rw [if_neg same] at hk'
    exact h.bytes g handle' kept hg own' hk'

/-- The diff that the base answers for a change may be kept. -/
theorem keepDiff (h : base.Onward o a) {c : Change} (known : o.change c) {diff : List LineChange}
    (answer : c.diff.answer base = .ok diff) (hk : a.diffs c.handle = none) :
    base.Onward o (a.keepDiff c.handle diff) := by
  refine ⟨h.disk, h.within.trans (.keepDiff hk diff), h.bytes, fun d kept hd origin hk' => ?_,
    h.told⟩
  rw [diffs_keepDiff] at hk'
  by_cases same : d.handle = c.handle
  · rw [if_pos same] at hk'
    rw [o.oneChange d c hd known same, answer, Option.some.inj hk']
  · rw [if_neg same] at hk'
    exact h.diffs d kept hd origin hk'

end Archive.Onward

/-! ### Work of a session -/

/-- Work that answers in every archive of a session as in its base, and that leaves
an archive of the session behind. -/
structure Work.Consults {α : Type} (w : Work α) (o : Scope) (base : Archive) : Prop where
  answer : ∀ a : Archive, base.Onward o a → w.answer a = w.answer base
  onward : ∀ a : Archive, base.Onward o a → base.Onward o (w.after a)

/-- Work that succeeds with one result throughout a session. -/
def Work.Answers {α : Type} (w : Work α) (o : Scope) (base : Archive) (x : α) : Prop :=
  ∀ a : Archive, base.Onward o a → w.answer a = .ok x

theorem Work.Answers.pure {α : Type} {o : Scope} {base : Archive} (x : α) :
    Work.Answers (Pure.pure x : Work α) o base x :=
  fun _ _ => rfl

theorem Work.Answers.here {α : Type} {w : Work α} {o : Scope} {base : Archive} {x : α}
    (h : w.Answers o base x) : w.answer base = .ok x :=
  h base (.refl o base)

namespace Work.Consults

variable {α β : Type} {o : Scope} {base : Archive}

theorem answers {w : Work α} {x : α} (h : w.Consults o base) (hx : w.answer base = .ok x) :
    w.Answers o base x := fun a ha => by rw [h.answer a ha, hx]

/-- What follows answers as if nothing had been done before. -/
theorem answer_bind {w : Work α} {f : α → Work β} {x : α} (hw : w.Consults o base)
    (hf : (f x).Consults o base) (hx : w.answer base = .ok x) :
    (w >>= f).answer base = (f x).answer base := by
  rw [answer_bind_ok hx, hf.answer _ (hw.onward base (.refl o base))]

theorem bind {w : Work α} {f : α → Work β} (hw : w.Consults o base)
    (hf : ∀ x, w.answer base = .ok x → (f x).Consults o base) : (w >>= f).Consults o base where
  answer a ha := by
    have same := hw.answer a ha
    cases h : w.answer base with
    | error e => rw [answer_bind_error h, answer_bind_error (same.trans h)]
    | ok x =>
      have next := hf x h
      have here := hw.onward a ha
      have there := hw.onward base (.refl o base)
      rw [answer_bind_ok h, answer_bind_ok (same.trans h), next.answer _ here,
        next.answer _ there]
  onward a ha := by
    have same := hw.answer a ha
    cases h : w.answer base with
    | error e =>
      rw [after_bind_error (same.trans h)]
      exact hw.onward a ha
    | ok x =>
      rw [after_bind_ok (same.trans h)]
      exact (hf x h).onward _ (hw.onward a ha)

theorem bind_answers {w : Work α} {f : α → Work β} {x : α} {y : β} (hw : w.Consults o base)
    (hx : w.Answers o base x) (hy : (f x).Answers o base y) : (w >>= f).Answers o base y := by
  intro a ha
  rw [answer_bind_ok (hx a ha)]
  exact hy _ (hw.onward a ha)

theorem modular (o : Scope) (base : Archive) : Modular fun _ w => w.Consults o base where
  pure _ := ⟨fun _ _ => rfl, fun _ ha => ha⟩
  throw _ := ⟨fun _ _ => rfl, fun _ ha => ha⟩
  note _ quiet := ⟨fun _ _ => rfl, fun _ ha => ha.note quiet⟩
  bind hw hf := hw.bind fun x _ => hf x

end Work.Consults

/-- Work that succeeds throughout a session if a condition holds, and then with one result,
and that fails throughout if it does not. -/
structure Work.Decides {α : Type} (w : Work α) (o : Scope) (base : Archive) (condition : Prop)
    (x : α) : Prop where
  consults : w.Consults o base
  passes : condition → w.answer base = .ok x
  fails : ¬ condition → ∃ e, w.answer base = .error e

namespace Work.Decides

variable {α β : Type} {o : Scope} {base : Archive} {p q : Prop} {x : α} {y : β}

theorem pure (x : α) : Decides (Pure.pure x : Work α) o base True x :=
  ⟨(Consults.modular o base).pure x, fun _ => rfl, fun no => absurd trivial no⟩

theorem lift {e : Except Fault α} (h : e = .ok x) : Decides (liftM e : Work α) o base True x := by
  rw [h]
  exact pure x

theorem note {n : Notice} (quiet : n.level ≠ .warning) : (Work.note n).Decides o base True () :=
  ⟨(Consults.modular o base).note n quiet, fun _ => rfl, fun no => absurd trivial no⟩

theorem congr {w : Work α} (h : w.Decides o base p x) (same : q ↔ p) : w.Decides o base q x :=
  ⟨h.consults, fun holds => h.passes (same.mp holds), fun no => h.fails fun holds =>
    no (same.mpr holds)⟩

theorem bind {w : Work α} {f : α → Work β} (hw : w.Decides o base p x)
    (hf : (f x).Decides o base q y) : (w >>= f).Decides o base (p ∧ q) y where
  consults := by
    apply hw.consults.bind
    intro x' hx'
    by_cases holds : p
    · cases (hw.passes holds).symm.trans hx'
      exact hf.consults
    · obtain ⟨e, he⟩ := hw.fails holds
      cases he.symm.trans hx'
  passes := fun ⟨first, second⟩ => by
    rw [hw.consults.answer_bind hf.consults (hw.passes first), hf.passes second]
  fails no := by
    by_cases holds : p
    · obtain ⟨e, he⟩ := hf.fails fun holds' => no ⟨holds, holds'⟩
      exact ⟨e, by rw [hw.consults.answer_bind hf.consults (hw.passes holds), he]⟩
    · obtain ⟨e, he⟩ := hw.fails holds
      exact ⟨e, answer_bind_error he f⟩

theorem bind_true {w : Work α} {f : α → Work β} (hw : w.Decides o base True x)
    (hf : (f x).Decides o base q y) : (w >>= f).Decides o base q y :=
  (hw.bind hf).congr (by simp)

theorem bind_pure {w : Work α} (hw : w.Decides o base p x) (f : α → β) :
    (w >>= fun x => Pure.pure (f x)).Decides o base p (f x) :=
  (hw.bind (pure (f x))).congr (by simp)

theorem answer_eq_ok {w : Work α} (h : w.Decides o base p x) {a : Archive}
    (ha : base.Onward o a) {x' : α} : w.answer a = .ok x' ↔ p ∧ x' = x := by
  rw [h.consults.answer a ha]
  by_cases holds : p
  · rw [h.passes holds]
    exact ⟨fun same => ⟨holds, (Except.ok.inj same).symm⟩, fun same => by rw [same.2]⟩
  · obtain ⟨e, he⟩ := h.fails holds
    rw [he]
    exact iff_of_false (fun same => by cases same) fun both => holds both.1

end Work.Decides

/-! ### Files and changes -/

variable {o : Scope} {base : Archive}

theorem File.consults_bytes {f : File} (known : o.file f) : f.bytes.Consults o base := by
  cases hf : f.holder with
  | memory text =>
    unfold bytes
    rw [hf]
    exact (Work.Consults.modular o base).pure _
  | disk handle root encoding =>
    have own : f.handle? = some handle := by rw [handle?, hf]
    -- bytes that are not kept are read from the disk, and the base would read the same
    refine ⟨fun a ha => ?_, fun a ha => ?_⟩
    · obtain ⟨_, hk, run⟩ | ⟨_, hk, read, run⟩ | ⟨_, hk, read, run⟩ := run_bytes hf a
      · rw [Work.answer_of_run run, ha.bytes f handle _ known own hk]
      · rw [ha.disk] at read
        rw [Work.answer_of_run run,
          Work.answer_of_run (run_bytes_found hf (ha.bytes_unkept hk) read)]
      · rw [ha.disk] at read
        rw [Work.answer_of_run run,
          Work.answer_of_run (run_bytes_lost hf (ha.bytes_unkept hk) read)]
    · obtain ⟨_, -, run⟩ | ⟨_, hk, read, run⟩ | ⟨_, -, -, run⟩ := run_bytes hf a
      · rwa [Work.after_of_run run]
      · rw [ha.disk] at read
        have answer := Work.answer_of_run (run_bytes_found hf (ha.bytes_unkept hk) read)
        have noted : base.Onward o (noting f root a) := ha.note Level.noConfusion
        rw [Work.after_of_run run]
        exact noted.keepBytes known own answer hk
      · rw [Work.after_of_run run]
        exact ha.note Level.noConfusion

theorem File.consults_text {f : File} (known : o.file f) : f.text.Consults o base :=
  modular_text (Work.Consults.modular o base) (consults_bytes known)

namespace Change

variable {c : Change}

theorem consults_files (known : o.change c) : ∀ f ∈ c.files, f.bytes.Consults o base :=
  fun f hf => File.consults_bytes (o.file_of_change c known f hf)

theorem consults_bothLines (known : o.change c) : c.bothLines.Consults o base :=
  modular_bothLines (Work.Consults.modular o base) (consults_files known)

/-- A diff that is not kept is computed as in the base, and may be kept. -/
theorem run_diff_onward (known : o.change c) (hc : c.origin = .compared) {a : Archive}
    (ha : base.Onward o a) (hk : a.diffs c.handle = none) :
    c.diff.answer a = c.diff.answer base ∧ base.Onward o (c.diff.after a) := by
  have lines : c.bothLines.Consults o base := consults_bothLines known
  have onward := lines.onward a ha
  have unkept := unkept_after_bothLines hk
  have answer : c.diff.answer a = c.diff.answer base := by
    rw [answer_diff_unkept hc hk, answer_diff_unkept hc (ha.diff_unkept hk), lines.answer a ha]
  refine ⟨answer, ?_⟩
  obtain ⟨e, -, run⟩ | ⟨texts, e, -, -, run⟩ | ⟨texts, text, -, -, run⟩ := run_diff_unkept hc hk
  · rwa [Work.after_of_run run]
  · rwa [Work.after_of_run run]
  · rw [Work.answer_of_run run] at answer
    rw [Work.after_of_run run]
    have noted := onward.note (n := .compared (lineDiff texts.1 texts.2).length text)
      Level.noConfusion
    exact noted.keepDiff known answer.symm unkept

theorem consults_diff (known : o.change c) : c.diff.Consults o base := by
  cases hc : c.origin with
  | scripted given =>
    unfold Change.diff
    rw [hc]
    exact (Work.Consults.modular o base).pure _
  | compared =>
    refine ⟨fun a ha => ?_, fun a ha => ?_⟩
    · cases hk : a.diffs c.handle with
      | some kept =>
        rw [Work.answer_of_run (run_diff_kept hc hk), ha.diffs c kept known hc hk]
      | none => exact (run_diff_onward known hc ha hk).1
    · cases hk : a.diffs c.handle with
      | some kept => rwa [Work.after_of_run (run_diff_kept hc hk)]
      | none => exact (run_diff_onward known hc ha hk).2

end Change

/-! ### Work and the log -/

/-- The archive with another log. -/
def Archive.relog (a : Archive) (log : List Notice) : Archive :=
  { a with log := log }

/-- Work that does not look at what has been told before. -/
def Work.IgnoresLog {α : Type} (w : Work α) : Prop :=
  ∀ (a : Archive) (log : List Notice), ∃ log',
    w.run (a.relog log) = (w.answer a, (w.after a).relog log')

namespace Work.IgnoresLog

variable {α β : Type}

theorem answer_relog {w : Work α} (h : w.IgnoresLog) (a : Archive) (log : List Notice) :
    w.answer (a.relog log) = w.answer a :=
  answer_of_run (h a log).choose_spec

theorem bind {w : Work α} {f : α → Work β} (hw : w.IgnoresLog) (hf : ∀ x, (f x).IgnoresLog) :
    (w >>= f).IgnoresLog := by
  intro a log
  obtain ⟨log', run⟩ := hw a log
  have same := answer_of_run run
  have after := after_of_run run
  cases h : w.answer a with
  | error e =>
    refine ⟨log', ?_⟩
    rw [run_eq, answer_bind_error h, answer_bind_error (same.trans h), after_bind_error h,
      after_bind_error (same.trans h), after]
  | ok x =>
    obtain ⟨log'', next⟩ := hf x (w.after a) log'
    refine ⟨log'', ?_⟩
    rw [run_eq, answer_bind_ok h, answer_bind_ok (same.trans h), after_bind_ok h,
      after_bind_ok (same.trans h), after, ← next, run_eq]

theorem answer_eq_ok {w : Work α} (h : w.IgnoresLog) {o : Scope} {base : Archive} {p : Prop}
    {x : α} (decides : w.Decides o base p x) {a : Archive}
    (onward : base.Onward o (a.relog base.log)) (x' : α) : w.answer a = .ok x' ↔ p ∧ x' = x := by
  rw [← h.answer_relog a base.log]
  exact decides.answer_eq_ok onward

theorem modular : Modular fun _ w => w.IgnoresLog where
  pure _ := fun _ log => ⟨log, rfl⟩
  throw _ := fun _ log => ⟨log, rfl⟩
  note n _ := fun _ log => ⟨log ++ [n], rfl⟩
  bind := bind

end Work.IgnoresLog

theorem File.ignoresLog_bytes (f : File) : f.bytes.IgnoresLog := by
  cases hf : f.holder with
  | memory text =>
    unfold bytes
    rw [hf]
    exact Work.IgnoresLog.modular.pure _
  | disk handle root encoding =>
    intro a log
    obtain ⟨bytes, hk, run⟩ | ⟨bytes, hk, read, run⟩ | ⟨e, hk, read, run⟩ := run_bytes hf a
    · rw [Work.answer_of_run run, Work.after_of_run run]
      exact ⟨log, run_bytes_kept hf hk⟩
    · rw [Work.answer_of_run run, Work.after_of_run run]
      exact ⟨(f.noting root (a.relog log)).log, run_bytes_found (a := a.relog log) hf hk read⟩
    · rw [Work.answer_of_run run, Work.after_of_run run]
      exact ⟨(f.noting root (a.relog log)).log, run_bytes_lost (a := a.relog log) hf hk read⟩

namespace Change

theorem ignoresLog_record (c : Change) (diff : List LineChange) :
    (c.record diff).IgnoresLog := by
  intro a log
  rw [Work.answer, Work.after, run_record, run_record]
  cases c.text with
  | ok text => exact ⟨_, rfl⟩
  | error e => exact ⟨log, rfl⟩

theorem ignoresLog_diff (c : Change) : c.diff.IgnoresLog := by
  cases hc : c.origin with
  | scripted given =>
    unfold diff
    rw [hc]
    exact Work.IgnoresLog.modular.pure _
  | compared =>
    intro a log
    cases hk : a.diffs c.handle with
    | some kept =>
      have run := run_diff_kept hc hk
      rw [Work.answer_of_run run, Work.after_of_run run]
      exact ⟨log, run_diff_kept hc hk⟩
    | none =>
      have computes : (c.bothLines >>= fun lines =>
          c.record (lineDiff lines.1 lines.2)).IgnoresLog :=
        (modular_bothLines Work.IgnoresLog.modular fun f _ => f.ignoresLog_bytes).bind
          fun lines => c.ignoresLog_record _
      have unkept : (a.relog log).diffs c.handle = none := hk
      rw [Work.answer, Work.after, run_diff_computed hc hk, run_diff_computed hc unkept]
      exact computes a log

end Change

end Lineage
