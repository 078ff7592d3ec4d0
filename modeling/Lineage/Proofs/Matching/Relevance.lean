/-
# What has no influence on the links

The changes that concern no range of a source are never asked for anything, whatever their
files are like. So two calls make the same links, or fail together, if their fragments are
alike and the changes that concern their sources are the same, in whatever order they come
and whatever other changes there are; and without a change that concerns no source a call
does the same work (`Matcher.map_unrelated`).

Key definitions: `Matching.relevant`, `Matcher.Akin`.
Key theorems: `Matching.carriedTo_perm`, `Matcher.Akin.links_eq`, `Matcher.map_middle`,
`Matcher.map_unrelated`.
-/
import Lineage.Proofs.Matching.Deciding
import Lineage.Proofs.Matching.Relating
import Mathlib.Data.List.Perm.Basic

namespace Lineage

open Fragment (Alike)

namespace Matching

/-! ### Relevant changes -/

/-- The changes whose old file a range of a source lies in. -/
def relevant (sources : List Fragment) (changes : List Change) : List Change :=
  changes.filter fun c => sources.any fun f => f.ranges.any fun r =>
    c.old.map File.version == some r.file.version

section Relevant

variable {sources sources' : List Fragment} {changes changes' : List Change} {f f' : Fragment}
  {r : Range}

theorem changesOf_relevant (hf : f ∈ sources) (hr : r ∈ f.ranges) :
    changesOf (relevant sources changes) r = changesOf changes r := by
  unfold changesOf relevant
  rw [List.filter_filter]
  apply List.filter_congr
  intro c _
  by_cases here : (c.old.map File.version == some r.file.version) = true
  · rw [here, Bool.true_and]
    exact List.any_eq_true.mpr ⟨f, hf, List.any_eq_true.mpr ⟨r, hr, here⟩⟩
  · rw [Bool.eq_false_iff.mpr here, Bool.false_and]

theorem changesOf_middle {above below : List Change} {c : Change}
    (elsewhere : c.old.map File.version ≠ some r.file.version) :
    changesOf (above ++ c :: below) r = changesOf (above ++ below) r := by
  have not_own : (c.old.map File.version == some r.file.version) = false :=
    beq_eq_false_iff_ne.mpr elsewhere
  unfold changesOf
  rw [List.filter_append, List.filter_append, List.filter_cons, not_own]
  rfl

theorem mem_relevant (hf : f ∈ sources) (hr : r ∈ f.ranges) {c : Change}
    (hc : c ∈ changesOf changes r) : c ∈ relevant sources changes := by
  rw [← changesOf_relevant hf hr] at hc
  exact (List.mem_filter.mp hc).1

theorem changesOf_perm (same : (relevant sources changes).Perm (relevant sources' changes'))
    (hf : f ∈ sources) (hf' : f' ∈ sources') (alike : f.Alike f') (hr : r ∈ f.ranges) :
    (changesOf changes r).Perm (changesOf changes' r) := by
  have perm := same.filter fun c => c.old.map File.version == some r.file.version
  have here : changesOf (relevant sources changes) r = _ := changesOf_relevant hf hr
  have there : changesOf (relevant sources' changes') r = _ :=
    changesOf_relevant hf' (alike.ranges.mem_iff.mp hr)
  rwa [← here, ← there]

end Relevant

/-! ### Carrying over by the same changes -/

section Carry

variable {a : Archive} {changes changes' : List Change} {f f' : Fragment} {r : Range}

theorem leaves_perm (same : (changesOf changes r).Perm (changesOf changes' r)) :
    (leaves a changes r).Perm (leaves a changes' r) := by
  unfold leaves
  by_cases none : changesOf changes r = []
  · rw [if_pos none, if_pos (none ▸ same).nil_eq.symm]
  · rw [if_neg none, if_neg fun none' => none (none' ▸ same).eq_nil]
    exact same.filterMap _

/-- Fragments alike are carried to the same ranges by the same changes. -/
theorem carriedTo_perm (alike : f.Alike f')
    (same : ∀ r ∈ f.ranges, (changesOf changes r).Perm (changesOf changes' r)) :
    (carriedTo a changes f).Perm (carriedTo a changes' f') := by
  have moved : (f.ranges.flatMap (leaves a changes)).Perm
      (f'.ranges.flatMap (leaves a changes')) :=
    alike.ranges.flatMap fun r hr => leaves_perm (same r hr)
  unfold carriedTo
  by_cases none : f.ranges.flatMap (leaves a changes) = []
  · rw [if_pos none, if_pos (none ▸ moved).nil_eq.symm]
    exact alike.ranges
  · rw [if_neg none, if_neg fun none' => none (none' ▸ moved).eq_nil]
    exact moved

theorem Carries.of_alike (alike : f.Alike f')
    (same : ∀ r ∈ f.ranges, (changesOf changes r).Perm (changesOf changes' r))
    (h : Carries a changes f) : Carries a changes' f' := by
  intro r hr c hc
  have own := alike.ranges.mem_iff.mpr hr
  exact h r own c ((same r own).mem_iff.mpr hc)

end Carry

/-- A step does the same work by changes that concern its sources alike. -/
theorem ofStep_congr {sources targets : List Fragment} {step : Step} {changes : List Change}
    (files : ∀ c ∈ step.changes, c.old ≠ none ∨ c.new ≠ none)
    (files' : ∀ c ∈ changes, c.old ≠ none ∨ c.new ≠ none)
    (same : ∀ f ∈ sources, ∀ r ∈ f.ranges, changesOf step.changes r = changesOf changes r) :
    ofStep sources targets { step with changes := changes } = ofStep sources targets step := by
  obtain ⟨kept, hkept⟩ := exists_withoutAdditions files
  obtain ⟨kept', hkept'⟩ := exists_withoutAdditions files'
  have carried : carryAll kept' (bySignature sources.zipIdx targets.zipIdx).unpaired =
      carryAll kept (bySignature sources.zipIdx targets.zipIdx).unpaired := by
    apply carryAll_congr
    intro f hf r hr
    rw [changesOf_withoutAdditions hkept, changesOf_withoutAdditions hkept',
      same f.1 (fst_mem_of_mem_leftOver hf) r hr]
  have lift : ∀ cs : List Change, (liftM (Except.ok cs : Except Fault _) : Work _) = pure cs :=
    fun _ => rfl
  unfold ofStep
  simp only [hkept, hkept', lift, pure_bind, carried]
  rfl

end Matching

theorem Fragment.handles_alike {fs fs' : List Fragment} (h : List.Forall₂ Alike fs fs') :
    (fs.map some).map (Option.map (·.handle)) = (fs'.map some).map (Option.map (·.handle)) := by
  rw [List.map_map, List.map_map]
  exact Matching.map_eq_of_forall₂ (fun f f' alike => congrArg some alike.handle) h

namespace Matcher

open Matching (relevant)

/-! ### Two calls -/

/-- Two calls for steps between the same revisions: their fragments are alike, their sources
have plain criteria, all their changes have files, and the relevant changes are the same in
some order. -/
structure Akin (sources targets : List (Option Fragment)) (step : Step)
    (sources' targets' : List (Option Fragment)) (step' : Step) : Prop where
  before : List.Forall₂ (Option.Rel Alike) sources sources'
  behind : List.Forall₂ (Option.Rel Alike) targets targets'
  plain : ∀ f ∈ Fragment.distinct sources, f.Plain
  ordinal : step.ordinal = step'.ordinal
  revision : step.revision = step'.revision
  predecessor : step.predecessor = step'.predecessor
  files : ∀ c ∈ step.changes, c.old ≠ none ∨ c.new ≠ none
  files' : ∀ c ∈ step'.changes, c.old ≠ none ∨ c.new ≠ none
  relevant : (relevant (Fragment.distinct sources) step.changes).Perm
    (relevant (Fragment.distinct sources') step'.changes)

namespace Akin

variable {sources targets sources' targets' : List (Option Fragment)} {step step' : Step}
  {a : Archive}

theorem symm (h : Akin sources targets step sources' targets' step') :
    Akin sources' targets' step' sources targets step where
  before := .flip (h.before.imp fun f f' same => by
    cases same with
    | none => exact .none
    | some same => exact .some same.symm)
  behind := .flip (h.behind.imp fun f f' same => by
    cases same with
    | none => exact .none
    | some same => exact .some same.symm)
  plain := Matching.forall_of_forall₂ (fun f f' same => by
    rintro ⟨x, y, z, own⟩
    exact ⟨x, y, z, same.criteria ▸ own⟩) (Fragment.distinct_alike h.before) h.plain
  ordinal := h.ordinal.symm
  revision := h.revision.symm
  predecessor := h.predecessor.symm
  files := h.files'
  files' := h.files
  relevant := h.relevant.symm

variable (h : Akin sources targets step sources' targets' step')
include h

/-- The sources that are left over after the first round are alike, at the same places. -/
theorem left_alike :
    List.Forall₂ (fun f f' => Matching.SourceAt f f' ∧ ∀ r ∈ f.1.ranges,
      (Matching.changesOf step.changes r).Perm (Matching.changesOf step'.changes r))
        (Matching.leftOver (Fragment.distinct sources) (Fragment.distinct targets))
        (Matching.leftOver (Fragment.distinct sources') (Fragment.distinct targets')) := by
  have first := Matching.bySignature_alike (Fragment.distinct_alike h.before)
    (Fragment.distinct_alike h.behind) h.plain
  apply Matching.forall₂_of_mem first.unpaired
  intro f hf f' hf' same
  exact ⟨same, fun r hr => Matching.changesOf_perm h.relevant
    (Matching.fst_mem_of_mem_leftOver hf) (Matching.fst_mem_of_mem_leftOver hf') same.2.1 hr⟩

theorem succeeds :
    let left := Matching.leftOver (Fragment.distinct sources) (Fragment.distinct targets)
    let left' := Matching.leftOver (Fragment.distinct sources') (Fragment.distinct targets')
    (Matching.Acceptable (Fragment.distinct sources) (Fragment.distinct targets) step ∧
      ∀ f ∈ left, Matching.Carries a step.changes f.1) →
    Matching.Acceptable (Fragment.distinct sources') (Fragment.distinct targets') step' ∧
      ∀ f ∈ left', Matching.Carries a step'.changes f.1 := by
  rintro left left' ⟨accepted, carries⟩
  refine ⟨accepted.of_looksLike ((Fragment.distinct_alike h.before).imp fun _ _ => Alike.looksLike)
    ((Fragment.distinct_alike h.behind).imp fun _ _ => Alike.looksLike) h.revision h.predecessor,
    Matching.forall_of_forall₂ ?_ h.left_alike carries⟩
  rintro f f' ⟨⟨-, alike, -⟩, same⟩ here
  exact here.of_alike alike same

/-- The links are the same. -/
theorem links_eq :
    let left := Matching.leftOver (Fragment.distinct sources) (Fragment.distinct targets)
    let left' := Matching.leftOver (Fragment.distinct sources') (Fragment.distinct targets')
    Matching.linksWith (Fragment.distinct sources) (Fragment.distinct targets)
        (Matching.carriedOver a step.changes left) =
      Matching.linksWith (Fragment.distinct sources') (Fragment.distinct targets')
        (Matching.carriedOver a step'.changes left') := by
  intro left left'
  apply Matching.linksWith_alike (Fragment.distinct_alike h.before)
    (Fragment.distinct_alike h.behind) h.plain
  unfold Matching.carriedOver
  rw [List.forall₂_map_left_iff, List.forall₂_map_right_iff]
  exact h.left_alike.imp fun f f' ⟨same, changes⟩ =>
    ⟨same, Matching.carriedTo_perm same.2.1 changes⟩

theorem known {o : Scope}
    (known : ∀ c ∈ Matching.relevant (Fragment.distinct sources) step.changes, o.change c) :
    (∀ f ∈ Fragment.distinct sources, ∀ r ∈ f.ranges,
        ∀ c ∈ Matching.changesOf step.changes r, o.change c) ∧
      ∀ f ∈ Fragment.distinct sources', ∀ r ∈ f.ranges,
        ∀ c ∈ Matching.changesOf step'.changes r, o.change c :=
  ⟨fun _ hf _ hr c hc => known c (Matching.mem_relevant hf hr hc),
    fun _ hf _ hr c hc => known c (h.relevant.mem_iff.mpr (Matching.mem_relevant hf hr hc))⟩

end Akin

/-- A call does the same work without a change of a file that no source has a range in. -/
theorem map_middle (matcher : Matcher) {sources targets : List (Option Fragment)} {step : Step}
    (files : ∀ c ∈ step.changes, c.old ≠ none ∨ c.new ≠ none) {above below : List Change}
    {c : Change} (changes : step.changes = above ++ c :: below)
    (elsewhere : ∀ f ∈ Fragment.distinct sources, ∀ r ∈ f.ranges,
      c.old.map File.version ≠ some r.file.version) :
    matcher.map sources targets { step with changes := above ++ below } =
      matcher.map sources targets step := by
  have others : ∀ d ∈ above ++ below, d.old ≠ none ∨ d.new ≠ none := by
    intro d hd
    apply files
    rw [changes]
    exact (List.sublist_cons_self c below).append_left above |>.subset hd
  have same : ∀ f ∈ Fragment.distinct sources, ∀ r ∈ f.ranges,
      Matching.changesOf step.changes r = Matching.changesOf (above ++ below) r := by
    intro f hf r hr
    rw [changes, Matching.changesOf_middle (elsewhere f hf r hr)]
  unfold map Matching.ofLists
  rw [Matching.ofStep_congr files others same]

/-- Two calls that may come at any time of a session, whatever has been told before, and that
differ only in the order of ranges, in the order of the relevant changes and in changes that
are not relevant, succeed together and make the same links of the same kinds between fragments
with the same handles. Whatever a change of a file is like that no source has a range in, a
call does exactly the same work without it. -/
theorem map_unrelated {sources targets sources' targets' : List (Option Fragment)}
    {step step' : Step} (akin : Akin sources targets step sources' targets' step') {o : Scope}
    {a b b' : Archive} (onward : a.Onward o (b.relog a.log))
    (onward' : a.Onward o (b'.relog a.log))
    (known : ∀ c ∈ relevant (Fragment.distinct sources) step.changes, o.change c)
    (matcher matcher' : Matcher) :
    let answer := ((matcher.map sources targets step).run b).1.1
    let answer' := ((matcher'.map sources' targets' step').run b').1.1
    ((∃ m, answer = .ok m) ↔ ∃ m', answer' = .ok m') ∧
    (∀ m m', answer = .ok m → answer' = .ok m' →
      m.links = m'.links ∧
        m.sources.map (Option.map (·.handle)) = m'.sources.map (Option.map (·.handle)) ∧
        m.targets.map (Option.map (·.handle)) = m'.targets.map (Option.map (·.handle))) ∧
    ∀ above below c, step.changes = above ++ c :: below →
      (∀ f ∈ Fragment.distinct sources, ∀ r ∈ f.ranges,
        c.old.map File.version ≠ some r.file.version) →
      matcher.map sources targets { step with changes := above ++ below } =
        matcher.map sources targets step := by
  intro answer answer'
  obtain ⟨own, other⟩ := akin.known known
  have decided := (Matching.ignoresLog_ofLists sources targets step).answer_eq_ok
    (Matching.decides_ofStep akin.files own) onward
  have decided' := (Matching.ignoresLog_ofLists sources' targets' step').answer_eq_ok
    (Matching.decides_ofStep akin.files' other) onward'
  rw [← matcher.answer_map] at decided
  rw [← matcher'.answer_map] at decided'
  refine ⟨?_, fun m m' success success' => ?_, fun _ _ _ changes elsewhere =>
    matcher.map_middle akin.files changes elsewhere⟩
  · constructor
    · rintro ⟨m, success⟩
      obtain ⟨accepted, -⟩ := (decided _).mp success
      exact ⟨_, (decided' _).mpr ⟨akin.succeeds accepted, rfl⟩⟩
    · rintro ⟨m, success⟩
      obtain ⟨accepted, -⟩ := (decided' _).mp success
      exact ⟨_, (decided _).mpr ⟨akin.symm.succeeds accepted, rfl⟩⟩
  · obtain ⟨-, rfl⟩ := (decided _).mp success
    obtain ⟨-, rfl⟩ := (decided' _).mp success'
    exact ⟨akin.links_eq, Fragment.handles_alike (Fragment.distinct_alike akin.before),
      Fragment.handles_alike (Fragment.distinct_alike akin.behind)⟩

/-- The order of two ranges does not count, nor does the change of a file that is nowhere to be
found. -/
theorem map_unrelated_missing :
    let before := ['x', '\n', 'k']
    let after := ['k']
    let old : File := ⟨⟨"a", "r1"⟩, .memory before⟩
    let new : File := ⟨⟨"a", "r2"⟩, .memory after⟩
    let gone : File := ⟨⟨"b", "r1"⟩, .disk 0 "" .utf8⟩
    let gone' : File := ⟨⟨"b", "r2"⟩, .disk 1 "" .utf8⟩
    let c : Change := ⟨0, some old, some new, .compared⟩
    let other : Change := ⟨1, some gone, some gone', .compared⟩
    let p : Position :=
      ⟨⟨2, 1, 2, 0, by decide, by decide, by decide, by decide⟩, old, 4, by decide⟩
    let r : Range := ⟨p, p, rfl, Int.le_refl _⟩
    let sources := [some (Fragment.plain 0 [Range.ofFirst old, r])]
    let sources' := [some (Fragment.plain 0 [r, Range.ofFirst old])]
    let targets := [some (Fragment.plain 1 [Range.ofFirst new])]
    let step : Step := ⟨2, "r2", some "r1", [], [other, c]⟩
    let step' : Step := { step with changes := [c] }
    let matcher := Matcher.make []
    (∃ m m', ((matcher.map sources targets step).run .empty).1.1 = .ok m ∧
      ((matcher.map sources' targets step').run .empty).1.1 = .ok m' ∧ m.links = m'.links) ∧
    matcher.map sources targets step' = matcher.map sources targets step := by
  intro before after old new gone gone' c other p r sources sources' targets step step' matcher
  let content : Version → List Char := fun v => if v.revision = "r1" then before else after
  have inMemory : ∀ g ∈ [c].flatMap Change.files,
      g.handle? = none ∧ g.text.answer .empty = .ok (content g.version) := by
    intro g hg
    have either : g = old ∨ g = new := by simpa [c, Change.files] using hg
    rcases either with rfl | rfl
    · exact ⟨rfl, rfl⟩
    · exact ⟨rfl, rfl⟩
  have oneFile : ∀ g ∈ [c].flatMap Change.files, ∀ g' ∈ [c].flatMap Change.files, g.OneHandle g' :=
    fun g hg _ _ _ some => absurd (inMemory g hg).1 some
  let o : Scope := .ofChanges [c] oneFile (by simp)
  have akin : Akin sources targets step sources' targets step' := by
    refine ⟨.cons (.some ⟨rfl, rfl, rfl, rfl, .swap _ _ _⟩) .nil,
      .cons (.some ⟨rfl, rfl, rfl, rfl, .refl _⟩) .nil, ?_, rfl, rfl, rfl, ?_, ?_, .refl _⟩
    · intro f hf
      rw [List.mem_singleton.mp hf]
      exact ⟨none, none, none, rfl⟩
    · simp [step, c, other]
    · simp [step', c]
  have accepted : Matching.Acceptable (Fragment.distinct sources') (Fragment.distinct targets)
      step' := by
    refine ⟨?_, ?_, fun _ => ⟨"r1", rfl, ?_⟩⟩ <;>
      simp [sources', targets, Fragment.distinct, Fragment.keepFirst, Fragment.plain]
    · rfl
    · exact ⟨rfl, rfl⟩
  have resolved : ∀ f ∈ Fragment.distinct sources', ∀ r ∈ f.ranges, r.Resolved content := by
    intro f hf s hs
    rw [List.mem_singleton.mp hf] at hs
    have either : s = r ∨ s = Range.ofFirst old := by simpa [Fragment.plain] using hs
    rcases either with rfl | rfl
    · exact ⟨⟨rfl, .inl rfl⟩, rfl, .inl rfl⟩
    · exact ⟨⟨rfl, .inl rfl⟩, rfl, .inl rfl⟩
  obtain ⟨m', success', -⟩ := Matching.ensures_ofStep (fun g g' hg hg' => oneFile g hg g' hg')
    accepted resolved akin.files' (by simp [step']) .empty fun g hg => (inMemory g hg).2
  have mapped : ((matcher.map sources' targets step').run .empty).1.1 = .ok m' :=
    (matcher.answer_map ..).trans success'
  have elsewhere : ∀ f ∈ Fragment.distinct sources, ∀ s ∈ f.ranges,
      other.old.map File.version ≠ some s.file.version := by
    intro f hf s hs
    rw [List.mem_singleton.mp hf] at hs
    have either : s = Range.ofFirst old ∨ s = r := by simpa [Fragment.plain] using hs
    rcases either with rfl | rfl
    · exact of_decide_eq_false rfl
    · exact of_decide_eq_false rfl
  have onward : Archive.empty.Onward o (Archive.empty.relog []) := .refl o .empty
  obtain ⟨together, same, without⟩ := map_unrelated akin onward onward
    (fun d hd => hd) matcher matcher
  obtain ⟨m, success⟩ := together.mpr ⟨_, mapped⟩
  refine ⟨⟨m, m', success, mapped, (same _ _ success mapped).1⟩, ?_⟩
  exact without [] [c] other rfl elsewhere

end Matcher
end Lineage
