/-
# Steps that can be planned

Planning a step reads the contents of its fragments, and nothing else can stop it: if the
files of the ranges have texts and every target has ranges, there is a plan
(`Tracker.ensures_plan`). In particular a comparison never ends with contents that are
left over, because it is only begun for as many ranges on both sides and each of them
uses one content up (`ensures_differFrom`).

Key definitions: `Archive.Readable`, `Step.Made`, `Matching.Followed`,
`Matching.Touches`.
Key theorems: `ensures_contentsDiffer`, `Tracker.ensures_plan`, `Matching.Followed.filled`.
-/
import Lineage.Proofs.Matching.Succeeding
import Lineage.Proofs.Tracking.Chains
import Lineage.Proofs.Tracking.Planning

namespace Lineage

/-! ### Comparing contents that can be read -/

/-- The files of a scope have texts, whatever these are. -/
def Archive.Readable (scope : File → Prop) (a : Archive) : Prop :=
  ∀ f, scope f → ∃ text, f.text.answer a = .ok text

section Readable

variable {scope : File → Prop}

theorem ensures_note_readable (n : Notice) :
    (Work.note n).Ensures (Archive.Readable scope) fun _ => True := by
  refine fun a ha => ⟨(), rfl, trivial, fun f hf => ?_⟩
  obtain ⟨text, ht⟩ := ha f hf
  have same : f.text.answer ((Work.note n).after a) = f.text.answer a :=
    File.answer_text_congr rfl fun _ _ => rfl
  exact ⟨text, same.trans ht⟩

variable (apart : ∀ f g, scope f → scope g → f.OneHandle g)
include apart

/-- The content of a range is read from its file, and the other files keep their texts. -/
theorem Range.ensures_content {r : Range} (hr : scope r.file) :
    r.content.Ensures (Archive.Readable scope) fun _ => True := by
  have text : r.file.text.Ensures (Archive.Readable scope) fun _ => True := by
    intro a ha
    obtain ⟨text, ht⟩ := ha r.file hr
    refine ⟨text, ht, trivial, fun g hg => ?_⟩
    obtain ⟨other, ho⟩ := ha g hg
    exact ⟨other, File.answer_text_after (apart g r.file hg hr) ho⟩
  exact text.bind fun _ _ => .pure trivial

theorem ensures_contentsOf : ∀ {rs : List Range}, (∀ r ∈ rs, scope r.file) →
    (contentsOf rs).Ensures (Archive.Readable scope) fun contents => contents.length = rs.length
  | [], _ => .pure rfl
  | r :: rs, known => by
    have rest := ensures_contentsOf fun s hs => known s (List.mem_cons_of_mem r hs)
    unfold contentsOf
    apply (r.ensures_content apart (known r List.mem_cons_self)).bind
    intro content _
    exact rest.bind fun contents length => .pure (congrArg (· + 1) length)

/-- A comparison ends, with nothing left over, if there are as many contents as ranges. -/
theorem ensures_differFrom : ∀ {rs : List Range} {remaining : List (List Char)},
    (∀ r ∈ rs, scope r.file) → remaining.length = rs.length →
      (differFrom rs remaining).Ensures (Archive.Readable scope) fun _ => True
  | [], remaining, _, length => by
    unfold differFrom
    rw [if_pos (List.eq_nil_of_length_eq_zero length)]
    exact .pure trivial
  | r :: rs, remaining, known, length => by
    unfold differFrom
    apply (r.ensures_content apart (known r List.mem_cons_self)).bind
    intro content _
    by_cases found : content ∈ remaining
    · rw [if_pos found]
      apply ensures_differFrom fun s hs => known s (List.mem_cons_of_mem r hs)
      rw [List.length_erase_of_mem found, length]
      rfl
    · rw [if_neg found]
      exact .pure trivial

theorem ensures_contentsDiffer {f g : Fragment} (known : ∀ r ∈ f.ranges ++ g.ranges, scope r.file) :
    (contentsDiffer f g).Ensures (Archive.Readable scope) fun _ => True := by
  unfold contentsDiffer
  by_cases length : f.ranges.length = g.ranges.length
  · rw [if_neg (not_not_intro length)]
    apply (ensures_contentsOf apart fun r hr => known r (List.mem_append_right _ hr)).bind
    intro contents count
    exact ensures_differFrom apart (fun r hr => known r (List.mem_append_left _ hr))
      (count.trans length.symm)
  · rw [if_pos length]
    exact .pure trivial

end Readable

/-! ### Snapshots that can be taken -/

theorem Snapshot.ensures_ofFragment {I : Archive → Prop} {f : Fragment} {ordinal changes : Int}
    (ranges : f.ranges ≠ []) (one_le : 1 ≤ ordinal) (nonneg : 0 ≤ changes) :
    (liftM (ofFragment f ordinal changes) : Work Snapshot).Ensures I fun _ => True := by
  have taken : ∃ s, ofFragment f ordinal changes = .ok s := by
    unfold ofFragment
    split
    next none => exact absurd none ranges
    next => exact ⟨_, by rw [dif_pos one_le, dif_pos nonneg]⟩
  obtain ⟨s, hs⟩ := taken
  exact .lift hs trivial

/-- The number of changes after a comparison is one that a snapshot can have. -/
theorem Lifespan.nonneg_next (l : Lifespan) (differ : Bool) :
    0 ≤ if differ then l.changes + 1 else l.changes := by
  have nonneg : 0 ≤ l.changes := l.last.changes_nonneg
  cases differ
  · exact nonneg
  · show 0 ≤ l.changes + 1
    omega

/-! ### Plans -/

namespace Tracker

section Plans

variable {scope : File → Prop} (apart : ∀ f g, scope f → scope g → f.OneHandle g)
  (t : Tracker) {m : Matching} (one_le : 1 ≤ m.ordinal)
include apart one_le

theorem ensures_planFragment (plan : Plan) {f : Fragment} (ranges : f.ranges ≠ [])
    (known : ∀ p, m.predecessor f = some p → ∀ r ∈ p.ranges ++ f.ranges, scope r.file) :
    (t.planFragment m plan f).Ensures (Archive.Readable scope) fun _ => True := by
  unfold planFragment
  dsimp only
  split
  next p k l found =>
    obtain ⟨p', hp, hfind⟩ := Option.bind_eq_some_iff.mp found
    obtain ⟨_, -, e⟩ := Option.map_eq_some_iff.mp hfind
    cases e
    apply (ensures_contentsDiffer apart (known p hp)).bind
    intro differ _
    apply (Snapshot.ensures_ofFragment ranges one_le (l.nonneg_next differ)).bind
    exact fun _ _ => .pure trivial
  next none =>
    have first := Snapshot.ensures_ofFragment (I := Archive.Readable scope) ranges one_le
      (Int.le_refl 0)
    split
    · apply (ensures_note_readable _).bind
      exact fun _ _ => first.bind fun _ _ => .pure trivial
    · exact first.bind fun _ _ => .pure trivial

theorem ensures_planTargets : ∀ {targets : List (Option Fragment)} (plan : Plan),
    (∀ f ∈ targets, ∃ g, f = some g ∧ g.ranges ≠ []) →
    (∀ f p, some f ∈ targets → m.predecessor f = some p →
      ∀ r ∈ p.ranges ++ f.ranges, scope r.file) →
      (t.planTargets m plan targets).Ensures (Archive.Readable scope) fun _ => True
  | [], _, _, _ => .pure trivial
  | target :: rest, plan, filled, known => by
    obtain ⟨f, rfl, ranges⟩ := filled target List.mem_cons_self
    have here : (t.planTarget m plan (some f)).Ensures (Archive.Readable scope) fun _ => True :=
      t.ensures_planFragment apart one_le plan ranges fun p => known f p List.mem_cons_self
    unfold planTargets
    exact here.bind fun plan' _ =>
      ensures_planTargets plan' (fun g hg => filled g (List.mem_cons_of_mem _ hg))
        fun g p hg => known g p (List.mem_cons_of_mem _ hg)

/-- Nothing but contents that cannot be read stops the planning of a step. -/
theorem ensures_plan (filled : ∀ f ∈ m.targets, ∃ g, f = some g ∧ g.ranges ≠ [])
    (known : ∀ f p, some f ∈ m.targets → m.predecessor f = some p →
      ∀ r ∈ p.ranges ++ f.ranges, scope r.file) :
    (t.plan m).Ensures (Archive.Readable scope) fun _ => True :=
  t.ensures_planTargets apart one_le _ filled known

end Plans

end Tracker

/-! ### Matchings of steps -/

/-- A step that was put together. -/
def Step.Made (step : Step) : Prop :=
  ∃ (ordinal : Int) (revision : String) (predecessor : Option String) (commits : List Commit)
    (changes : Option (List Change)) (a : Archive),
    (Step.make ordinal revision predecessor commits changes).answer a = .ok step

theorem Step.Made.one_le_ordinal {step : Step} (h : step.Made) : 1 ≤ step.ordinal := by
  obtain ⟨ordinal, revision, predecessor, commits, changes, a, h⟩ := h
  obtain ⟨one_le, h⟩ := Work.of_answer_require h
  obtain ⟨-, h⟩ := Work.of_answer_require h
  cases changes with
  | some changes =>
    cases h
    exact one_le
  | none =>
    obtain ⟨merged, -, h⟩ := Work.exists_of_answer_bind h
    cases h
    exact one_le

namespace Matching

/-- A matching that a step makes which was put together. -/
def Followed (m : Matching) : Prop :=
  ∃ (matcher next : Matcher) (sources targets : List (Option Fragment)) (step : Step)
    (a b : Archive), step.Made ∧ (matcher.map sources targets step).run a = ((.ok m, next), b)

/-- A file is one that a range of a fragment on either side lies in. -/
def Touches (m : Matching) (file : File) : Prop :=
  ∃ (f : Fragment) (r : Range), some f ∈ m.sources ++ m.targets ∧ r ∈ f.ranges ∧ r.file = file

variable {m : Matching}

theorem Followed.mapped (h : m.Followed) : m.Mapped := by
  obtain ⟨matcher, next, sources, targets, step, a, b, -, h⟩ := h
  exact ⟨matcher, next, sources, targets, step, a, b, h⟩

theorem Followed.one_le_ordinal (h : m.Followed) : 1 ≤ m.ordinal := by
  obtain ⟨matcher, next, sources, targets, step, a, b, made, h⟩ := h
  obtain ⟨carried, -, -, rfl⟩ := Matcher.carried_of_map h
  exact made.one_le_ordinal

/-- The targets of a step have ranges. -/
theorem Followed.filled (h : m.Followed) : ∀ f ∈ m.targets, ∃ g, f = some g ∧ g.ranges ≠ [] := by
  obtain ⟨matcher, next, sources, targets, step, a, b, -, h⟩ := h
  have accepted : Acceptable (Fragment.distinct sources) (Fragment.distinct targets) step := by
    by_contra fails
    obtain ⟨cause, told⟩ := (checks_validate _ _ step).tells fails
    cases (Matcher.run_map_eq_ok.mp h).1.symm.trans (run_ofStep_of_error told a)
  intro f hf
  rw [targets_of_map h, List.mem_map] at hf
  obtain ⟨g, hg, rfl⟩ := hf
  exact ⟨g, rfl, accepted.ranges g (List.mem_append_right _ hg)⟩

end Matching
end Lineage
