/-
# Steps that succeed

The only thing that a step asks of its fragments is that they have ranges, and that these
lie in the revisions that the step leads between. If they do, and the files of its changes
can be read, the step succeeds: no range that cannot be translated stops it, and its links
can be made one after the other. If they do not, nothing is done and the misuse is told
(`Matcher.map_accepts`).

Key definitions: `Matching.Acceptable`, `Matching.addLinks`.
Key theorems: `Matching.checks_validate`, `Matching.WellFormed.addLinks_eq`,
`Matcher.map_accepts`.
-/
import Lineage.Proofs.Matching.Places
import Lineage.Proofs.Translation.Succeeding

namespace Lineage

/-! ### Preconditions -/

/-- A check that passes if a condition holds, and tells a misuse if it does not. -/
structure Checks (check : Except Fault Unit) (condition : Prop) : Prop where
  passes : condition → check = .ok ()
  tells : ¬ condition → ∃ cause, check = .error (.misuse cause)

namespace Checks

variable {check next : Except Fault Unit} {condition condition' : Prop}

theorem congr (h : Checks check condition) (same : condition' ↔ condition) :
    Checks check condition' :=
  ⟨fun holds => h.passes (same.mp holds), fun fails => h.tells fun holds => fails (same.mpr holds)⟩

theorem bind (h : Checks check condition) (h' : Checks next condition') :
    Checks (check >>= fun _ => next) (condition ∧ condition') := by
  constructor
  · rintro ⟨holds, holds'⟩
    rw [h.passes holds, h'.passes holds']
    rfl
  · intro fails
    by_cases holds : condition
    · obtain ⟨cause, told⟩ := h'.tells fun holds' => fails ⟨holds, holds'⟩
      exact ⟨cause, by rw [h.passes holds, told]; rfl⟩
    · obtain ⟨cause, told⟩ := h.tells holds
      exact ⟨cause, by rw [told]; rfl⟩

end Checks

namespace Matching

/-- What a step asks of its fragments: all have ranges, those of the targets lie in its
revision, and those of the sources, if there are any, in its predecessor. -/
structure Acceptable (sources targets : List Fragment) (step : Step) : Prop where
  ranges : ∀ f ∈ sources ++ targets, f.ranges ≠ []
  targets : ∀ f ∈ targets, ∀ r ∈ f.ranges, r.file.version.revision = step.revision
  sources : sources ≠ [] → ∃ revision, step.predecessor = some revision ∧
    ∀ f ∈ sources, ∀ r ∈ f.ranges, r.file.version.revision = revision

theorem checks_requireRanges : ∀ fs : List Fragment,
    Checks (requireRanges fs) (∀ f ∈ fs, f.ranges ≠ [])
  | [] => ⟨fun _ => rfl, fun fails => absurd (by simp) fails⟩
  | f :: fs => by
    have rest := checks_requireRanges fs
    unfold requireRanges
    by_cases none : f.ranges = []
    · rw [if_pos none]
      exact ⟨fun all => absurd none (all f List.mem_cons_self), fun _ => ⟨_, rfl⟩⟩
    · rw [if_neg none]
      exact rest.congr (by simp [none])

theorem checks_requireRevision (side : Side) (revision : String) : ∀ rs : List Range,
    Checks (requireRevision side revision rs) (∀ r ∈ rs, r.file.version.revision = revision)
  | [] => ⟨fun _ => rfl, fun fails => absurd (by simp) fails⟩
  | r :: rs => by
    have rest := checks_requireRevision side revision rs
    unfold requireRevision
    by_cases same : r.file.version.revision = revision
    · rw [if_pos same]
      exact rest.congr (by simp [same])
    · rw [if_neg same]
      exact ⟨fun all => absurd (all r List.mem_cons_self) same, fun _ => ⟨_, rfl⟩⟩

theorem checks_revision (side : Side) (revision : String) (fs : List Fragment) :
    Checks (requireRevision side revision (fs.flatMap fun f => f.ranges))
      (∀ f ∈ fs, ∀ r ∈ f.ranges, r.file.version.revision = revision) :=
  (checks_requireRevision side revision _).congr List.forall_mem_flatMap.symm

/-- The ranges of the sources are checked only if there are sources. -/
theorem checks_sources (sources : List Fragment) (predecessor : Option String) :
    Checks
      (if sources = [] then pure ()
      else
        match predecessor with
        | none => throw (.misuse .noPredecessor)
        | some revision => requireRevision .source revision (sources.flatMap fun f => f.ranges))
      (sources ≠ [] → ∃ revision, predecessor = some revision ∧
        ∀ f ∈ sources, ∀ r ∈ f.ranges, r.file.version.revision = revision) := by
  by_cases none : sources = []
  · rw [if_pos none]
    exact ⟨fun _ => rfl, fun fails => absurd (fun some => absurd none some) fails⟩
  · rw [if_neg none]
    cases predecessor with
    | none =>
      refine ⟨fun holds => ?_, fun _ => ⟨_, rfl⟩⟩
      obtain ⟨revision, given, -⟩ := holds none
      cases given
    | some revision =>
      exact (checks_revision .source revision sources).congr (by simp [none])

/-- A step tells a misuse if and only if its fragments are not what it asks for. -/
theorem checks_validate (sources targets : List Fragment) (step : Step) :
    Checks (validate sources targets step) (Acceptable sources targets step) := by
  have ranges := checks_requireRanges (sources ++ targets)
  have revision := checks_revision .target step.revision targets
  have checked := ranges.bind (revision.bind (checks_sources sources step.predecessor))
  exact checked.congr ⟨fun h => ⟨h.ranges, h.targets, h.sources⟩, fun h => ⟨h.1, h.2.1, h.2.2⟩⟩

/-! ### Carrying ranges over -/

theorem exists_withoutAdditions : ∀ {changes : List Change},
    (∀ c ∈ changes, c.old ≠ none ∨ c.new ≠ none) → ∃ kept, withoutAdditions changes = .ok kept
  | [], _ => ⟨[], rfl⟩
  | c :: cs, files => by
    obtain ⟨kind, hk⟩ := Change.exists_kind_of_files (files c List.mem_cons_self)
    obtain ⟨rest, hr⟩ :=
      exists_withoutAdditions fun d hd => files d (List.mem_cons_of_mem c hd)
    unfold withoutAdditions
    rw [hk, hr]
    exact ⟨_, rfl⟩

section Carry

variable {scope : File → Prop} {content : Version → List Char} {changes : List Change}
  (apart : ∀ f g, scope f → scope g → f.OneHandle g)
include apart

/-- Changes of the file of a range translate it without a fault. -/
theorem ensures_translateBy {r : Range} (resolved : r.Resolved content) : ∀ {cs : List Change},
    (∀ c ∈ cs, ∃ old, c.old = some old ∧ old.version = r.file.version) →
    (∀ c ∈ cs, ∀ f ∈ c.files, scope f) →
      (translateBy r cs).Ensures (Archive.Holds scope content) fun _ => True
  | [], _, _ => .pure trivial
  | c :: cs, olds, known => by
    obtain ⟨old, hold, version⟩ := olds c List.mem_cons_self
    obtain ⟨text, ht⟩ := Change.exists_text_of_files (.inl (hold ▸ Option.some_ne_none old))
    have rest := ensures_translateBy resolved (fun d hd => olds d (List.mem_cons_of_mem c hd))
      fun d hd => known d (List.mem_cons_of_mem c hd)
    unfold translateBy
    apply (Range.ensures_translate apart (known c List.mem_cons_self) hold version resolved).bind
    intro moved _
    cases moved with
    | some moved => exact rest.bind fun _ _ => .pure trivial
    | none =>
      apply (Work.Ensures.lift (P := fun _ => True) ht trivial).bind
      intro _ _
      exact (Work.ensures_note _).bind fun _ _ => rest

theorem ensures_carryRanges (known : ∀ c ∈ changes, ∀ f ∈ c.files, scope f) :
    ∀ {rs : List Range}, (∀ r ∈ rs, r.Resolved content) →
      (carryRanges changes rs).Ensures (Archive.Holds scope content) fun _ => True
  | [], _ => .pure trivial
  | r :: rs, resolved => by
    have rest := ensures_carryRanges known fun s hs => resolved s (List.mem_cons_of_mem r hs)
    have chosen : ∀ c ∈ changesOf changes r, c ∈ changes ∧
        ∃ old, c.old = some old ∧ old.version = r.file.version := by
      intro c hc
      obtain ⟨mem, version⟩ := List.mem_filter.mp hc
      exact ⟨mem, Option.map_eq_some_iff.mp (eq_of_beq version)⟩
    have translated := ensures_translateBy apart (resolved r List.mem_cons_self)
      (fun c hc => (chosen c hc).2) fun c hc => known c (chosen c hc).1
    unfold carryRanges
    split
    · apply (Work.Ensures.pure (P := fun _ => True) trivial).bind
      intro _ _
      exact rest.bind fun _ _ => .pure trivial
    next eq =>
      rw [eq] at translated
      apply translated.bind
      intro _ _
      exact rest.bind fun _ _ => .pure trivial

theorem ensures_carry (known : ∀ c ∈ changes, ∀ f ∈ c.files, scope f) {f : Fragment}
    (resolved : ∀ r ∈ f.ranges, r.Resolved content) :
    (carry changes f).Ensures (Archive.Holds scope content) fun _ => True := by
  apply (ensures_carryRanges apart known resolved).bind
  intro ranges _
  exact .pure trivial

theorem ensures_carryAll (known : ∀ c ∈ changes, ∀ f ∈ c.files, scope f) :
    ∀ {fs : List (Fragment × Nat)}, (∀ f ∈ fs, ∀ r ∈ f.1.ranges, r.Resolved content) →
      (carryAll changes fs).Ensures (Archive.Holds scope content) fun _ => True
  | [], _ => .pure trivial
  | f :: fs, resolved => by
    have rest := ensures_carryAll known fun g hg => resolved g (List.mem_cons_of_mem f hg)
    have first := ensures_carry apart known (resolved f List.mem_cons_self)
    unfold carryAll
    exact first.bind fun _ _ => rest.bind fun _ _ => .pure trivial

theorem ensures_ofStep {sources targets : List Fragment} {step : Step}
    (accepted : Acceptable sources targets step)
    (resolved : ∀ f ∈ sources, ∀ r ∈ f.ranges, r.Resolved content)
    (files : ∀ c ∈ step.changes, c.old ≠ none ∨ c.new ≠ none)
    (known : ∀ c ∈ step.changes, ∀ f ∈ c.files, scope f) :
    (ofStep sources targets step).Ensures (Archive.Holds scope content) fun _ => True := by
  have valid := (checks_validate sources targets step).passes accepted
  obtain ⟨kept, hkept⟩ := exists_withoutAdditions files
  have still : ∀ c ∈ kept, ∀ f ∈ c.files, scope f := by
    intro c hc
    rw [withoutAdditions_eq hkept] at hc
    exact known c (List.mem_filter.mp hc).1
  have left : ∀ f ∈ (bySignature sources.zipIdx targets.zipIdx).unpaired,
      ∀ r ∈ f.1.ranges, r.Resolved content := by
    intro f hf
    have source := (fair_bySignature sources targets).unpaired_sublist.subset hf
    exact resolved f.1 (List.fst_mem_of_mem_zipIdx source)
  unfold ofStep
  apply (Work.Ensures.lift (P := fun _ => True) valid trivial).bind
  intro _ _
  apply (Work.ensures_note _).bind
  intro _ _
  apply (Work.Ensures.lift (P := fun changes => changes = kept) hkept rfl).bind
  rintro changes rfl
  apply (ensures_carryAll apart still left).bind
  intro carried _
  apply (Work.ensures_note _).bind
  intro _ _
  apply (Work.ensures_note _).bind
  intro _ _
  exact .pure trivial

end Carry

theorem run_ofStep_of_error {sources targets : List Fragment} {step : Step} {e : Fault}
    (told : validate sources targets step = .error e) (a : Archive) :
    (ofStep sources targets step).run a = (.error e, a) := by
  unfold ofStep
  rw [told]
  rfl

/-! ### Links one by one -/

theorem link_eq_of_free {m : Matching} {source target : Option Fragment} {i j : Nat}
    (hi : m.placeOn .source source = .ok i) (hj : m.placeOn .target target = .ok j)
    (free_i : i ∉ m.links.map Link.source) (free_j : j ∉ m.links.map Link.target)
    (kind : Link.Kind) :
    m.link source target kind = .ok { m with links := m.links ++ [⟨i, j, kind⟩] } := by
  have noneFrom := linkFrom_eq_none.mpr free_i
  have noneTo := linkTo_eq_none.mpr free_j
  unfold link
  rw [hi, hj]
  simp only [bind, Except.bind, noneFrom, noneTo]
  rfl

/-- Adds links one by one, between the fragments at the places that they name. -/
def addLinks (m : Matching) : List Link → Except Fault Matching
  | [] => .ok m
  | l :: ls => do
    let linked ← m.link m.sources[l.source]?.join m.targets[l.target]?.join l.kind
    linked.addLinks ls

/-- The links of a well-formed matching that are still to be added can be. -/
theorem WellFormed.addLinks_eq {m : Matching} (h : m.WellFormed) : ∀ {rest done : List Link},
    m.links = done ++ rest → { m with links := done }.addLinks rest = .ok m
  | [], done, all => by
    rw [List.append_nil] at all
    rw [addLinks, ← all]
  | l :: rest, done, all => by
    have mem : l ∈ m.links := by simp [all]
    have next : m.links = (done ++ [l]) ++ rest := by simp [all]
    have sources_once := h.sources_once
    have targets_once := h.targets_once
    rw [all, List.map_append, List.nodup_append] at sources_once targets_once
    have free_source : l.source ∉ done.map Link.source := fun used =>
      sources_once.2.2 _ used _ List.mem_cons_self rfl
    have free_target : l.target ∉ done.map Link.target := fun used =>
      targets_once.2.2 _ used _ List.mem_cons_self rfl
    obtain ⟨f, hf, place_f⟩ := h.source_stands l mem
    obtain ⟨t, ht, place_t⟩ := h.target_stands l mem
    have linked : { m with links := done }.link (some f) (some t) l.kind =
        .ok { m with links := done ++ [l] } :=
      link_eq_of_free (m := { m with links := done }) (placeOn_eq .source place_f)
        (placeOn_eq .target place_t) free_source free_target l.kind
    have source : m.sources[l.source]?.join = some f := by rw [hf, Option.join_some]
    have target : m.targets[l.target]?.join = some t := by rw [ht, Option.join_some]
    rw [addLinks, source, target, linked]
    exact h.addLinks_eq next

end Matching

/-! ### Steps -/

namespace Matcher

/-- A step succeeds if and only if its fragments are acceptable, given that the ranges of
its sources were found in their files and that the files of its changes can be read; their
diffs may be any. The links of the matching can be added one by one, and the matcher then
starts from the targets. A step that does not succeed tells a misuse before anything is done,
and leaves the matcher as it was. -/
theorem map_accepts (matcher : Matcher) {sources : List (Option Fragment)}
    (targets : List (Option Fragment)) (step : Step) {a : Archive} {content : Version → List Char}
    (resolved : ∀ f ∈ Fragment.distinct sources, ∀ r ∈ f.ranges, r.Resolved content)
    (files : ∀ c ∈ step.changes, c.old ≠ none ∨ c.new ≠ none)
    (apart : ∀ f g, f ∈ step.changes.flatMap Change.files →
      g ∈ step.changes.flatMap Change.files → f.OneHandle g)
    (readable : ∀ f ∈ step.changes.flatMap Change.files,
      f.text.answer a = .ok (content f.version)) :
    let before := Fragment.distinct sources
    let behind := Fragment.distinct targets
    let answer := ((matcher.map sources targets step).run a).1
    ((∃ m, answer.1 = .ok m) ↔ Matching.Acceptable before behind step) ∧
    (∀ m, answer.1 = .ok m →
      { m with links := [] }.addLinks m.links = .ok m ∧ answer.2.previous = behind) ∧
    (¬ Matching.Acceptable before behind step →
      ∃ cause, (matcher.map sources targets step).run a =
        ((.error (.misuse cause), matcher), a)) := by
  intro before behind answer
  have known : ∀ c ∈ step.changes, ∀ f ∈ c.files, f ∈ step.changes.flatMap Change.files :=
    fun c hc f hf => List.mem_flatMap.mpr ⟨c, hc, hf⟩
  have checks := Matching.checks_validate before behind step
  have refused : ¬ Matching.Acceptable before behind step →
      ∃ cause, (matcher.map sources targets step).run a =
        ((.error (.misuse cause), matcher), a) := by
    intro fails
    obtain ⟨cause, told⟩ := checks.tells fails
    exact ⟨cause, run_map_eq_error.mpr ⟨Matching.run_ofStep_of_error told a, rfl⟩⟩
  refine ⟨⟨?_, fun accepted => ?_⟩, fun m success => ?_, refused⟩
  · rintro ⟨m, success⟩
    by_contra fails
    obtain ⟨cause, run⟩ := refused fails
    have told : answer.1 = .error (.misuse cause) := congrArg (·.1.1) run
    rw [success] at told
    cases told
  · obtain ⟨m, hm, -⟩ := Matching.ensures_ofStep apart accepted resolved files known a readable
    exact ⟨m, (answer_map ..).trans hm⟩
  · have run : (matcher.map sources targets step).run a =
        ((.ok m, answer.2), ((matcher.map sources targets step).run a).2) :=
      success ▸ rfl
    exact ⟨(Matching.wellFormed_of_map run).addLinks_eq rfl, (Matching.sides_of_map run).2⟩

/-- A diff that has nothing to do with the files does not stop a step, and a missing
predecessor does. -/
theorem map_accepts_any_diff :
    let old : File := ⟨⟨"a", "r1"⟩, .memory ['x', '\n', 'y']⟩
    let new : File := ⟨⟨"a", "r2"⟩, .memory ['y']⟩
    let c : Change := ⟨0, some old, some new, .scripted [⟨.delete, 7, ['z'], by decide⟩]⟩
    let step : Step := ⟨2, "r2", some "r1", [], [c]⟩
    let sources := [some (Fragment.plain 0 [Range.ofFirst old])]
    let matcher := Matcher.make sources
    (∃ m, ((matcher.map sources [] step).run .empty).1.1 = .ok m) ∧
      ∃ cause, (matcher.map sources [] { step with predecessor := none }).run .empty =
        ((.error (.misuse cause), matcher), .empty) := by
  intro old new c step sources matcher
  let content : Version → List Char :=
    fun v => if v.revision = "r1" then ['x', '\n', 'y'] else ['y']
  have found : (old.positionAt 1 1 4).answer .empty = .ok (some (Range.ofFirst old).first) := rfl
  have stands : (Range.ofFirst old).first.Resolved content :=
    Position.standsIn_of_positionAt (fun _ _ => rfl) found
  have resolved : ∀ f ∈ Fragment.distinct sources, ∀ r ∈ f.ranges, r.Resolved content := by
    intro f hf r hr
    rw [List.mem_singleton.mp hf] at hr
    rw [List.mem_singleton.mp hr]
    exact ⟨stands, stands⟩
  have files : ∀ d ∈ step.changes, d.old ≠ none ∨ d.new ≠ none := by
    intro d hd
    rw [List.mem_singleton.mp hd]
    exact .inl (Option.some_ne_none old)
  have inMemory : ∀ f ∈ step.changes.flatMap Change.files,
      f.handle? = none ∧ f.text.answer .empty = .ok (content f.version) := by
    intro f hf
    have either : f = old ∨ f = new := by simpa [step, c, Change.files] using hf
    rcases either with rfl | rfl
    · exact ⟨rfl, rfl⟩
    · exact ⟨rfl, rfl⟩
  have apart : ∀ f g, f ∈ step.changes.flatMap Change.files →
      g ∈ step.changes.flatMap Change.files → f.OneHandle g :=
    fun f g hf _ _ some => absurd (inMemory f hf).1 some
  have readable := fun f hf => (inMemory f hf).2
  have accepted : Matching.Acceptable (Fragment.distinct sources) (Fragment.distinct []) step := by
    refine ⟨?_, fun t ht => absurd ht List.not_mem_nil, fun _ => ⟨"r1", rfl, ?_⟩⟩
    · intro f hf
      rw [List.mem_singleton.mp hf]
      exact List.cons_ne_nil _ _
    · intro f hf r hr
      rw [List.mem_singleton.mp hf] at hr
      rw [List.mem_singleton.mp hr]
      rfl
  have refused : ¬ Matching.Acceptable (Fragment.distinct sources) (Fragment.distinct [])
      { step with predecessor := none } := by
    intro h
    obtain ⟨revision, given, -⟩ := h.sources (List.cons_ne_nil _ _)
    cases given
  obtain ⟨succeeds, -, -⟩ := map_accepts matcher [] step resolved files apart readable
  obtain ⟨-, -, fails⟩ :=
    map_accepts matcher [] { step with predecessor := none } resolved files apart readable
  exact ⟨succeeds.mpr accepted, fails refused⟩

end Matcher
end Lineage
