/-
# Ranges that are translated can be translated again

There are two ways for a range to become another one. Its ends may be taken to the new file one
by one, and then they are found there and make a range if they are in order. Or its lines are
estimated, from a diff that need not fit the files, and whole lines are looked up; the estimate
may lie outside the new file, hit an empty line or turn a range around, but then nothing is found.
Both ways lead to nothing or to a range whose ends a look-up in the new file finds
(`Range.exists_translate`). That is all that was asked of the range itself, so whatever changes of
the file follow, each of them can translate what the one before has left (`Range.exists_follow`).

Key definitions: `Range.LiesIn`, `Range.SpansLines`, `Change.LeadsOn`, `Change.Course`,
`Range.follow`.
Key theorems: `Range.exists_translate`, `Range.exists_follow`, `Range.translate_closed`.
-/
import Lineage.Proofs.Translation.Ordering

namespace Lineage

open Text (plainLines splitLines)

/-- A range of a file both of whose ends a look-up in its text finds. -/
structure Range.LiesIn (r : Range) (file : File) (text : List Char) : Prop where
  firstFile : r.first.file = file
  lastFile : r.last.file = file
  first : r.first.StandsIn file text
  last : r.last.StandsIn file text

/-- A range from the first column of a line up to the last character of a line that does not
end it. -/
structure Range.SpansLines (r : Range) (text : List Char) : Prop where
  first : r.first.column = 1
  last : ∃ body, (plainLines text)[(r.last.line - 1).toNat]? = some body ∧
    r.last.lineOffset + 1 = body.length

/-- A change of a session by which the text of a file can be left: what it leads to, if
anything, has a text as well. -/
structure Change.LeadsOn (c : Change) (o : Scope) (a : Archive) (old : File)
    (before : List Char) : Prop where
  known : o.change c
  oldText : old.text.answer a = .ok before
  newText : ∀ new, c.new = some new → ∃ after, new.text.answer a = .ok after
  old : c.old = some old

/-- Changes that follow each other: each one leaves the text of a file of the version that the
one before has led to, until one of them leads nowhere. -/
def Change.Course (o : Scope) (a : Archive) : Version → List Char → List Change → Prop
  | _, _, [] => True
  | version, text, c :: cs => ∃ old, old.version = version ∧ c.LeadsOn o a old text ∧
      ∀ new after, c.new = some new → new.text.answer a = .ok after →
        Course o a new.version after cs

/-- Translates a range by one change after the other, as long as something is left of it. -/
def Range.follow (r : Range) : List Change → Work (Option Range)
  | [] => pure (some r)
  | c :: cs => do
    match ← r.translate c with
    | none => pure none
    | some moved => moved.follow cs

variable {o : Scope} {a : Archive}

/-! ### Look-ups in a session -/

section LookUp

variable {f : File} {text : List Char} {tab : Int} (known : o.file f)
  (read : f.text.answer a = .ok text)
include known read

namespace File

theorem answers_fullLines : f.fullLines.Answers o a (splitLines text) :=
  (modular_fullLines (Work.Consults.modular o a) (consults_bytes known)).answers
    (answer_fullLines read)

theorem answers_positionOf {offset : Int} (nonneg : 0 ≤ offset) (htab : 1 ≤ tab) :
    (f.positionOf offset tab).Answers o a
      ((Text.placeOf tab (splitLines text) offset).map fun place => ⟨place, f, tab, htab⟩) :=
  (modular_positionOf (Work.Consults.modular o a) (consults_bytes known) offset tab).answers
    (answer_positionOf read nonneg htab)

theorem answers_positionAt {line column : Int} (hline : 1 ≤ line) (hcolumn : 1 ≤ column)
    (htab : 1 ≤ tab) :
    ∃ r, (f.positionAt line column tab).Answers o a r ∧ ∀ p, r = some p →
      p.file = f ∧ p.StandsIn f text ∧ p.column = column := by
  refine ⟨_, (modular_positionAt (Work.Consults.modular o a) (consults_bytes known) line column
    tab).answers (answer_positionAt read hline hcolumn htab), fun p hp => ?_⟩
  obtain ⟨place, found, rfl⟩ := Option.map_eq_some_iff.mp hp
  have again := Text.placeAt_of_placeOf (Text.placeOf_of_placeAt htab found)
  obtain ⟨-, -, -, -, -, -, -, inColumn, -⟩ := Text.placeAt_eq_some.mp found
  exact ⟨rfl, ⟨rfl, .inl again⟩, inColumn⟩

theorem answers_endOfLine {line : Int} (hline : 1 ≤ line) (htab : 1 ≤ tab) :
    ∃ r, (f.endOfLine line tab).Answers o a r ∧ ∀ p, r = some p →
      p.file = f ∧ p.StandsIn f text ∧
        ∃ body, (plainLines text)[(p.line - 1).toNat]? = some body ∧
          p.lineOffset + 1 = body.length := by
  have consults : f.fullLines.Consults o a :=
    modular_fullLines (Work.Consults.modular o a) (consults_bytes known)
  unfold endOfLine Work.require
  rw [if_pos hline, pure_bind]
  cases last : Text.lastOffset (splitLines text) line with
  | none =>
    refine ⟨none, consults.bind_answers (answers_fullLines known read) ?_, by simp⟩
    rw [last]
    exact .pure none
  | some offset =>
    obtain ⟨place, body, found, onLine, hbody, length⟩ := Text.exists_of_lastOffset htab last
    have answers := answers_positionOf known read (Text.lastOffset_nonneg last) htab
    rw [found] at answers
    refine ⟨some ⟨place, f, tab, htab⟩, consults.bind_answers (answers_fullLines known read) ?_,
      ?_⟩
    · rw [last]
      exact answers
    · rintro p ⟨⟩
      have again := Text.placeAt_of_placeOf found
      exact ⟨rfl, ⟨rfl, .inl again⟩, body, onLine.symm ▸ hbody, length⟩

end File

theorem Position.StandsIn.answers {p : Position} (stands : p.StandsIn f text) (file : p.file = f) :
    (f.positionOf p.offset p.tabSize).Answers o a (some p) := by
  have found := Text.placeOf_of_placeAt p.one_le_tabSize stands.placeAt
  have answers := File.answers_positionOf known read p.offset_nonneg p.one_le_tabSize
  subst file
  rwa [found] at answers

end LookUp

/-! ### One change -/

namespace Change

variable {c : Change} {old new : File} {before after : List Char}

/-- A change both of whose files have texts answers with a diff, whatever that is. -/
theorem LeadsOn.exists_finds (h : c.LeadsOn o a old before) (hnew : c.new = some new)
    (newText : new.text.answer a = .ok after) :
    ∃ diff, c.Finds o a old new before after diff := by
  suffices ∃ diff, c.diff.answer a = .ok diff by
    obtain ⟨diff, answer⟩ := this
    exact ⟨diff, h.known, h.oldText, newText, answer, h.old, hnew⟩
  cases hc : c.origin with
  | scripted diff =>
    refine ⟨diff, ?_⟩
    unfold Change.diff
    rw [hc]
    rfl
  | compared =>
    cases hk : a.diffs c.handle with
    | some kept => exact ⟨kept, Work.answer_of_run (run_diff_kept hc hk)⟩
    | none =>
      have files : c.old ≠ none ∨ c.new ≠ none := .inl (h.old ▸ Option.some_ne_none old)
      have apart : ∀ f ∈ c.old, ∀ g ∈ c.new, f.OneHandle g := fun f hf g hg =>
        o.oneFile f g (o.file_of_change c h.known f (mem_files.mpr (.inl hf)))
          (o.file_of_change c h.known g (mem_files.mpr (.inr hg)))
      have oldSide : (sideText c.old).answer a = .ok before := by rw [h.old, sideText, h.oldText]
      have newSide : (sideText c.new).answer a = .ok after := by rw [hnew, sideText, newText]
      have both := run_bothLines oldSide (answer_sideText_after apart newSide)
      exact ⟨_, (diff_of_lines hc files hk (Work.answer_of_run both)).1⟩

end Change

/-- A change without a new file takes every position of its old file nowhere. -/
theorem Position.StandsIn.apply_removed {p : Position} {c : Change} {old : File}
    {text : List Char} (stands : p.StandsIn old text) (hold : c.old = some old)
    (hnew : c.new = none) : (p.apply c).Answers o a none := by
  unfold apply
  rw [hold, hnew]
  dsimp only
  rw [if_neg fun ne => ne stands.version]
  exact .pure none

namespace Range

variable {r : Range} {c : Change} {old new : File} {before after : List Char}
  {diff : List LineChange}

/-- Ends that are taken somewhere make no range if they are not in order. -/
theorem apply_of_reversed (known : o.change c) {p q : Position}
    (begins : (r.first.apply c).Answers o a (some p))
    (ends : (r.last.apply c).Answers o a (some q)) (reversed : ¬ p.offset ≤ q.offset) :
    (r.apply c).Answers o a none := by
  apply (r.first.consults_apply known).bind_answers begins
  apply (r.last.consults_apply known).bind_answers ends
  dsimp only
  rw [if_neg reversed]
  exact .pure none

/-- The ends of a range are taken to the new file, or nothing becomes of the range. -/
theorem exists_apply (h : c.Finds o a old new before after diff)
    (first : r.first.StandsIn old before) (last : r.last.StandsIn old before) :
    ∃ m, (r.apply c).Answers o a m ∧ ∀ s, m = some s → s.LiesIn new after := by
  obtain ⟨s, begins, place⟩ := h.exists_answer first
  obtain ⟨t, ends, place'⟩ := h.exists_answer last
  by_cases lost : s = none ∨ t = none
  · exact ⟨none, apply_of_lost h.known begins ends lost, by simp⟩
  · obtain ⟨hs, ht⟩ := not_or.mp lost
    obtain ⟨p, rfl⟩ := Option.ne_none_iff_exists'.mp hs
    obtain ⟨q, rfl⟩ := Option.ne_none_iff_exists'.mp ht
    obtain ⟨-, _, -, inNew, stands, -⟩ := place p rfl
    obtain ⟨-, _, -, inNew', stands', -⟩ := place' q rfl
    have same : p.file.version = q.file.version := by rw [inNew, inNew']
    by_cases le : p.offset ≤ q.offset
    · refine ⟨_, apply_of_ends h.known begins ends same le, ?_⟩
      rintro s ⟨⟩
      exact ⟨inNew, inNew', stands, stands'⟩
    · exact ⟨none, apply_of_reversed h.known begins ends le, by simp⟩

section Lines

variable (known : o.file new) (read : new.text.answer a = .ok after)
include known read

theorem exists_ofLines {first last tab : Int} (hfirst : 1 ≤ first) (hlast : 1 ≤ last)
    (htab : 1 ≤ tab) :
    ∃ m, (ofLines new first last tab).Answers o a m ∧
      ∀ s, m = some s → s.LiesIn new after ∧ s.SpansLines after := by
  have unresolved : (do
      Work.note (.linesUnresolved first last new.name)
      pure none : Work (Option Range)).Answers o a none := fun _ _ => rfl
  have modular := Work.Consults.modular o a
  have bytes : new.bytes.Consults o a := File.consults_bytes known
  obtain ⟨begin?, begins, found⟩ :=
    File.answers_positionAt known read hfirst (Int.le_refl 1) htab
  obtain ⟨end?, ends, found'⟩ := File.answers_endOfLine known read hlast htab
  have bind_ends {next : Option Position → Option Position → Work (Option Range)}
      {m : Option Range} (answers : (next begin? end?).Answers o a m) :
      (do next (← new.positionAt first 1 tab) (← new.endOfLine last tab)).Answers o a m :=
    (File.modular_positionAt modular bytes first 1 tab).bind_answers begins
      ((File.modular_endOfLine modular bytes last tab).bind_answers ends answers)
  cases begin? with
  | none => exact ⟨none, bind_ends unresolved, by simp⟩
  | some p =>
    cases end? with
    | none => exact ⟨none, bind_ends unresolved, by simp⟩
    | some q =>
      obtain ⟨inNew, stands, column⟩ := found p rfl
      obtain ⟨inNew', stands', body⟩ := found' q rfl
      have same : p.file.version = q.file.version := by rw [inNew, inNew']
      by_cases le : p.offset ≤ q.offset
      · refine ⟨some ⟨p, q, same, le⟩, bind_ends ?_, ?_⟩
        · dsimp only
          rw [if_pos le, ofPositions?_eq_ok same le]
          exact .pure _
        · rintro s ⟨⟩
          exact ⟨⟨inNew, inNew', stands, stands'⟩, column, body⟩
      · refine ⟨none, bind_ends ?_, by simp⟩
        dsimp only
        rw [if_neg le]
        exact unresolved

/-- Wherever the lines of a range are estimated to be, nothing or whole lines of the new file
are found there. -/
theorem exists_estimate (r : Range) (diff : List LineChange) :
    ∃ m, (r.estimate new diff).Answers o a m ∧
      ∀ s, m = some s → s.LiesIn new after ∧ s.SpansLines after := by
  have lines : new.fullLines.Consults o a :=
    File.modular_fullLines (Work.Consults.modular o a) (File.consults_bytes known)
  have full := File.answers_fullLines known read
  cases ends : estimateLines r.first.line r.last.line
      ((diff.filter LineChange.isDelete).map LineChange.line) (splitLines after).length with
  | none =>
    refine ⟨none, lines.bind_answers full ?_, by simp⟩
    dsimp only
    rw [ends]
    exact fun _ _ => rfl
  | some ends' =>
    obtain ⟨first, last⟩ := ends'
    by_cases below : first < 1 ∨ last < 1
    · refine ⟨none, lines.bind_answers full ?_, by simp⟩
      dsimp only
      rw [ends]
      dsimp only
      rw [if_pos below]
      exact .pure none
    · obtain ⟨m, answers, place⟩ := exists_ofLines known read (show 1 ≤ first by omega)
        (show 1 ≤ last by omega) r.first.one_le_tabSize
      refine ⟨m, lines.bind_answers full ?_, place⟩
      dsimp only
      rw [ends]
      dsimp only
      rwa [if_neg below]

end Lines

section Translate

variable (known : o.change c)
include known

theorem consults_translate (r : Range) : (r.translate c).Consults o a :=
  modular_translate (Work.Consults.modular o a) (Change.consults_files known)
    (Change.consults_diff known) r

theorem translate_of_removed (hnew : c.new = none) (lost : (r.apply c).Answers o a none) :
    (r.translate c).Answers o a none := by
  apply (r.consults_apply known).bind_answers lost
  dsimp only
  rw [hnew]
  exact .pure none

end Translate

theorem translate_of_lost (h : c.Finds o a old new before after diff)
    (lost : (r.apply c).Answers o a none) {m : Option Range}
    (estimated : (r.estimate new diff).Answers o a m) : (r.translate c).Answers o a m := by
  apply (r.consults_apply h.known).bind_answers lost
  dsimp only
  rw [h.new]
  have consults : c.diff.Consults o a := Change.consults_diff h.known
  exact consults.bind_answers (consults.answers h.answer) estimated

/-- A change translates a range of its old file to nothing or to a range of its new one. It
is the one that the ends make, if they make one, and a range of whole lines otherwise. -/
theorem exists_translate (h : c.LeadsOn o a old before) (first : r.first.StandsIn old before)
    (last : r.last.StandsIn old before) :
    ∃ m, (r.translate c).Answers o a m ∧ (c.new = none → m = none) ∧
      (∀ s, (r.apply c).Answers o a (some s) → m = some s) ∧
      ∀ s, m = some s → ∃ new after, c.new = some new ∧ new.text.answer a = .ok after ∧
        s.LiesIn new after ∧ ((r.apply c).Answers o a none → s.SpansLines after) := by
  cases hnew : c.new with
  | none =>
    have lost : (r.apply c).Answers o a none :=
      apply_of_lost h.known (first.apply_removed h.old hnew) (last.apply_removed h.old hnew)
        (.inl rfl)
    refine ⟨none, translate_of_removed h.known hnew lost, fun _ => rfl, fun s applied => ?_,
      by simp⟩
    cases lost.here.symm.trans applied.here
  | some new =>
    obtain ⟨after, newText⟩ := h.newText new hnew
    obtain ⟨diff, finds⟩ := h.exists_finds hnew newText
    obtain ⟨applied?, applied, place⟩ := exists_apply finds first last
    cases applied? with
    | some s =>
      refine ⟨some s, translate_of_applied h.known applied, by simp,
        fun s' applied' => Except.ok.inj (applied.here.symm.trans applied'.here), ?_⟩
      rintro _ ⟨⟩
      refine ⟨new, after, rfl, newText, place s rfl, fun lost => ?_⟩
      cases applied.here.symm.trans lost.here
    | none =>
      obtain ⟨m, estimated, lines⟩ := exists_estimate finds.newKnown newText r diff
      refine ⟨m, translate_of_lost finds applied estimated, by simp,
        fun s applied' => ?_, fun s hs => ?_⟩
      · cases applied.here.symm.trans applied'.here
      · exact ⟨new, after, rfl, newText, (lines s hs).1, fun _ => (lines s hs).2⟩

/-! ### A course of changes -/

/-- Changes that follow each other translate a range one after the other. -/
theorem exists_follow : ∀ {cs : List Change} {file : File} {text : List Char} {r : Range},
    Change.Course o a file.version text cs → r.first.StandsIn file text →
      r.last.StandsIn file text → ∃ m, (r.follow cs).Answers o a m
  | [], _, _, r, _, _, _ => ⟨some r, .pure _⟩
  | c :: cs, file, text, r, ⟨old, version, leads, onward⟩, first, last => by
    have first' : r.first.StandsIn old text := ⟨version.trans first.version, first.found⟩
    have last' : r.last.StandsIn old text := ⟨version.trans last.version, last.found⟩
    obtain ⟨moved?, translated, -, -, place⟩ := exists_translate leads first' last'
    have consults : (r.translate c).Consults o a := consults_translate leads.known r
    cases moved? with
    | none => exact ⟨none, consults.bind_answers translated (.pure none)⟩
    | some moved =>
      obtain ⟨new, after, hnew, newText, lies, -⟩ := place moved rfl
      obtain ⟨m, followed⟩ :=
        exists_follow (onward new after hnew newText) lies.first lies.last
      exact ⟨m, consults.bind_answers translated followed⟩

/-- Whatever diff a change carries, a range whose ends were found in its old file is translated
without a fault. It becomes nothing if there is no new file, and what its ends make if they
make a range; otherwise it becomes nothing or takes whole lines. The ends of what it
becomes are in order and in the new file, where a look-up at their offsets finds them again,
each with its own tab size. So it can be translated by any changes that follow. -/
theorem translate_closed (h : c.LeadsOn o a old before) (first : r.first.StandsIn old before)
    (last : r.last.StandsIn old before) :
    ∃ m, (r.translate c).Answers o a m ∧ (c.new = none → m = none) ∧
      (∀ s, (r.apply c).Answers o a (some s) → m = some s) ∧
      ∀ s, m = some s → ∃ new after, c.new = some new ∧ new.text.answer a = .ok after ∧
        s.first.file = new ∧ s.last.file = new ∧ s.first.offset ≤ s.last.offset ∧
        (∀ p ∈ [s.first, s.last],
          (new.positionOf p.offset p.tabSize).Answers o a (some p)) ∧
        ((r.apply c).Answers o a none → s.SpansLines after) ∧
        ∀ cs, Change.Course o a new.version after cs → ∃ m', (s.follow cs).Answers o a m' := by
  obtain ⟨m, translated, removed, preferred, place⟩ := exists_translate h first last
  refine ⟨m, translated, removed, preferred, fun s hs => ?_⟩
  obtain ⟨new, after, hnew, newText, lies, lines⟩ := place s hs
  have known : o.file new := o.file_of_change c h.known new (Change.mem_files.mpr (.inr hnew))
  refine ⟨new, after, hnew, newText, lies.firstFile, lies.lastFile, s.first_le_last, ?_, lines,
    fun cs course => exists_follow course lies.first lies.last⟩
  intro p hp
  rcases List.mem_pair.mp hp with rfl | rfl
  · exact lies.first.answers known newText lies.firstFile
  · exact lies.last.answers known newText lies.lastFile

/-- A given diff that fits neither file: it deletes another text than the second line has, and
nothing else. The range of the first two lines takes the second new line, and the removal that
follows translates that. -/
theorem translate_closed_misfit :
    let before := ['a', '\n', 'b', '\n', 'c']
    let after := ['x', '\n', 'y', 'z', '\r', '\n']
    let old : File := ⟨⟨"a", "r1"⟩, .memory before⟩
    let new : File := ⟨⟨"a", "r2"⟩, .memory after⟩
    let d : LineChange := ⟨.delete, 2, ['q'], by decide⟩
    let c : Change := ⟨0, some old, some new, .scripted [d]⟩
    let removal : Change := ⟨1, some new, none, .compared⟩
    let p : Position :=
      ⟨⟨1, 1, 0, 0, by decide, by decide, by decide, by decide⟩, old, 4, by decide⟩
    let q : Position :=
      ⟨⟨2, 1, 2, 0, by decide, by decide, by decide, by decide⟩, old, 4, by decide⟩
    let r : Range := ⟨p, q, rfl, by decide⟩
    ∃ o : Scope, c.LeadsOn o .empty old before ∧ p.StandsIn old before ∧ q.StandsIn old before ∧
      (r.apply c).Answers o .empty none ∧ ∃ s, (r.translate c).Answers o .empty (some s) ∧
        s.SpansLines after ∧ s.first.line = 2 ∧ s.last.offset = 3 ∧
        ∃ m, (s.follow [removal]).Answers o .empty m := by
  intro before after old new d c removal p q r
  have inMemory : ∀ f ∈ [c, removal].flatMap Change.files, f.handle? = none := by
    simp [c, removal, Change.files, old, new, File.handle?]
  let o : Scope := .ofChanges [c, removal]
    (fun f hf _ _ _ some => absurd (inMemory f hf) some) (by simp [c, removal])
  have finds : c.Finds o .empty old new before after [d] :=
    ⟨List.mem_cons_self, rfl, rfl, rfl, rfl, rfl⟩
  have leads : c.LeadsOn o .empty old before :=
    ⟨List.mem_cons_self, rfl, fun f hf => ⟨after, Option.some.inj hf ▸ rfl⟩, rfl⟩
  have course : Change.Course o .empty new.version after [removal] :=
    ⟨new, rfl, ⟨by simp [o, Scope.ofChanges], rfl, by simp, rfl⟩, by simp⟩
  have first : p.StandsIn old before := ⟨rfl, .inl rfl⟩
  have last : q.StandsIn old before := ⟨rfl, .inl rfl⟩
  have layout : Layout.ofDiff [d] = ⟨[d], []⟩ := by
    show Layout.pair (Layout.byLine [d]) (Layout.byLine []) 0 0 = _
    rw [Layout.byLine_of_pairwise (by simp), Layout.byLine_of_pairwise (by simp),
      Layout.pair_nil]
  obtain ⟨_, begins, -⟩ := finds.exists_answer first
  have lost : (r.apply c).Answers o .empty none :=
    apply_of_lost finds.known begins (finds.gone rfl (.inl (by rw [layout]; rfl))) (.inr rfl)
  obtain ⟨m, translated, -, -, place⟩ := translate_closed (r := r) leads first last
  obtain ⟨s, estimated, line, offset⟩ : ∃ s, (r.estimate new [d]).answer .empty = .ok (some s) ∧
      s.first.line = 2 ∧ s.last.offset = 3 := ⟨_, rfl, rfl, rfl⟩
  obtain ⟨m', answers, -⟩ := exists_estimate finds.newKnown finds.newText r [d]
  obtain rfl := Except.ok.inj (answers.here.symm.trans estimated)
  obtain rfl := Except.ok.inj
    (translated.here.symm.trans (translate_of_lost finds lost answers).here)
  obtain ⟨f, text, hf, ht, -, -, -, -, lines, closed⟩ := place s rfl
  obtain rfl := Option.some.inj hf
  obtain rfl := Except.ok.inj (finds.newText.symm.trans ht)
  exact ⟨o, leads, first, last, lost, s, translated, lines lost, line, offset, closed _ course⟩

end Range
end Lineage
