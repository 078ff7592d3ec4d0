/-
# What a step depends on

Whether a step succeeds is decided by its fragments and by the translations that it asks
for, each taken as it comes out at the start of a session: the changes of a range's file
must each translate it without a fault, or find that it is lost. If they do, what the range
becomes is what these translations leave of it, and the links follow from that. The order
in which files are read and what other changes there are do not enter into it.

Key definitions: `Range.Moves`, `Range.movedBy`, `Matching.leaves`, `Matching.carriedTo`,
`Matching.Carries`, `Matching.leftOver`, `Matching.carriedOver`.
Key theorems: `Matching.decides_carry`, `Matching.decides_ofStep`.
-/
import Lineage.Proofs.Matching.Succeeding

namespace Lineage

variable {o : Scope} {a : Archive}

namespace Range

/-- A change translates a range without a fault, to a range or to nothing. -/
def Moves (a : Archive) (r : Range) (c : Change) : Prop :=
  ∃ moved, (r.translate c).answer a = .ok moved

/-- What a change makes of a range, if anything. -/
def movedBy (a : Archive) (r : Range) (c : Change) : Option Range :=
  ((r.translate c).answer a).toOption.join

theorem decides_translate {c : Change} (known : o.change c) (r : Range) :
    (r.translate c).Decides o a (r.Moves a c) (r.movedBy a c) where
  consults := modular_translate (Work.Consults.modular o a) (Change.consults_files known)
    (Change.consults_diff known) r
  passes := by
    rintro ⟨moved, answer⟩
    rw [movedBy, answer]
    rfl
  fails no := by
    cases answer : (r.translate c).answer a with
    | ok moved => exact absurd ⟨moved, answer⟩ no
    | error e => exact ⟨e, rfl⟩

end Range

namespace Matching

/-- What the changes of its file make of a range. A range of which no change concerns the
file stays. -/
def leaves (a : Archive) (changes : List Change) (r : Range) : List Range :=
  if changesOf changes r = [] then [r] else (changesOf changes r).filterMap (r.movedBy a)

/-- What the changes make of the ranges of a fragment; its own ones if nothing is left. -/
def carriedTo (a : Archive) (changes : List Change) (f : Fragment) : List Range :=
  if f.ranges.flatMap (leaves a changes) = [] then f.ranges
  else f.ranges.flatMap (leaves a changes)

/-- The changes of their files translate all ranges of a fragment without a fault. -/
def Carries (a : Archive) (changes : List Change) (f : Fragment) : Prop :=
  ∀ r ∈ f.ranges, ∀ c ∈ changesOf changes r, r.Moves a c

/-- The sources that the first round leaves over. -/
def leftOver (sources targets : List Fragment) : List (Fragment × Nat) :=
  (bySignature sources.zipIdx targets.zipIdx).unpaired

/-- Fragments with what the changes make of them. -/
def carriedOver (a : Archive) (changes : List Change) (fs : List (Fragment × Nat)) :
    List ((Fragment × Nat) × List Range) :=
  fs.map fun f => (f, carriedTo a changes f.1)

theorem fst_mem_of_mem_leftOver {sources targets : List Fragment} {f : Fragment × Nat}
    (h : f ∈ leftOver sources targets) : f.1 ∈ sources :=
  List.fst_mem_of_mem_zipIdx ((fair_bySignature sources targets).unpaired_sublist.subset h)

theorem old_ne_none_of_mem {changes : List Change} {r : Range} {c : Change}
    (h : c ∈ changesOf changes r) : c.old ≠ none := by
  intro none
  have version := (List.mem_filter.mp h).2
  simp [none] at version

theorem decides_translateBy (r : Range) : ∀ {cs : List Change}, (∀ c ∈ cs, o.change c) →
    (∀ c ∈ cs, c.old ≠ none) →
      (translateBy r cs).Decides o a (∀ c ∈ cs, r.Moves a c) (cs.filterMap (r.movedBy a))
  | [], _, _ => (Work.Decides.pure []).congr (by simp)
  | c :: cs, known, olds => by
    have rest := decides_translateBy r (fun d hd => known d (List.mem_cons_of_mem c hd))
      fun d hd => olds d (List.mem_cons_of_mem c hd)
    have first := Range.decides_translate (a := a) (known c List.mem_cons_self) r
    obtain ⟨text, ht⟩ := Change.exists_text_of_files (.inl (olds c List.mem_cons_self))
    unfold translateBy
    apply (first.bind (q := ∀ d ∈ cs, r.Moves a d) ?_).congr (by simp)
    rw [List.filterMap_cons]
    cases r.movedBy a c with
    | some moved => exact rest.bind_pure (moved :: ·)
    | none =>
      apply (Work.Decides.lift ht).bind_true
      apply (Work.Decides.note Level.noConfusion).bind_true
      exact rest

section Carry

variable {changes : List Change}

theorem decides_carryRanges : ∀ {rs : List Range},
    (∀ r ∈ rs, ∀ c ∈ changesOf changes r, o.change c) →
      (carryRanges changes rs).Decides o a
        (∀ r ∈ rs, ∀ c ∈ changesOf changes r, r.Moves a c) (rs.flatMap (leaves a changes))
  | [], _ => (Work.Decides.pure []).congr (by simp)
  | r :: rs, known => by
    have rest := decides_carryRanges fun s hs => known s (List.mem_cons_of_mem r hs)
    have translated := decides_translateBy (a := a) r (known r List.mem_cons_self)
      fun c hc => old_ne_none_of_mem hc
    unfold carryRanges
    rw [List.flatMap_cons, leaves]
    cases eq : changesOf changes r with
    | nil => exact ((Work.Decides.pure [r]).bind (rest.bind_pure ([r] ++ ·))).congr (by simp [eq])
    | cons c cs =>
      rw [eq] at translated
      rw [if_neg (List.cons_ne_nil c cs)]
      exact (translated.bind (rest.bind_pure (_ ++ ·))).congr (by simp [eq])

/-- A fragment is carried over if its ranges can be translated, to what is left of them. -/
theorem decides_carry {f : Fragment}
    (known : ∀ r ∈ f.ranges, ∀ c ∈ changesOf changes r, o.change c) :
    (carry changes f).Decides o a (Carries a changes f) (carriedTo a changes f) :=
  (decides_carryRanges known).bind_pure _

theorem decides_carryAll : ∀ {fs : List (Fragment × Nat)},
    (∀ f ∈ fs, ∀ r ∈ f.1.ranges, ∀ c ∈ changesOf changes r, o.change c) →
      (carryAll changes fs).Decides o a (∀ f ∈ fs, Carries a changes f.1)
        (carriedOver a changes fs)
  | [], _ => (Work.Decides.pure []).congr (by simp)
  | f :: fs, known => by
    have rest := decides_carryAll fun g hg => known g (List.mem_cons_of_mem f hg)
    have first := decides_carry (a := a) (known f List.mem_cons_self)
    unfold carryAll
    exact (first.bind (rest.bind_pure (_ :: ·))).congr (by simp)

end Carry

section Step

variable {sources targets : List Fragment} {step : Step}

theorem decides_validate (sources targets : List Fragment) (step : Step) :
    (liftM (validate sources targets step) : Work Unit).Decides o a
      (Acceptable sources targets step) () where
  consults := (Work.Consults.modular o a).lift _
  passes accepted := by
    rw [Work.answer_lift]
    exact (checks_validate sources targets step).passes accepted
  fails no := by
    obtain ⟨cause, told⟩ := (checks_validate sources targets step).tells no
    exact ⟨_, by rw [Work.answer_lift, told]⟩

/-- A step succeeds if its fragments are acceptable and those that are left over after the
first round can be carried over; what they are carried to says the links then. -/
theorem decides_ofStep (files : ∀ c ∈ step.changes, c.old ≠ none ∨ c.new ≠ none)
    (known : ∀ f ∈ sources, ∀ r ∈ f.ranges, ∀ c ∈ changesOf step.changes r, o.change c) :
    (ofStep sources targets step).Decides o a
      (Acceptable sources targets step ∧
        ∀ f ∈ leftOver sources targets, Carries a step.changes f.1)
      ⟨step.ordinal, sources.map some, targets.map some,
        linksWith sources targets (carriedOver a step.changes (leftOver sources targets))⟩ := by
  obtain ⟨kept, hkept⟩ := exists_withoutAdditions files
  have carried : (carryAll kept (leftOver sources targets)).Decides o a
      (∀ f ∈ leftOver sources targets, Carries a step.changes f.1)
      (carriedOver a step.changes (leftOver sources targets)) := by
    rw [carryAll_congr fun _ _ r _ => changesOf_withoutAdditions hkept r]
    exact decides_carryAll fun f hf => known f.1 (fst_mem_of_mem_leftOver hf)
  have noted : ∀ n : Notice, n.level ≠ .warning → (Work.note n).Decides o a True () :=
    fun n quiet => .note quiet
  unfold ofStep
  apply (decides_validate sources targets step).bind
  dsimp only
  apply (noted _ Level.noConfusion).bind_true
  apply (Work.Decides.lift hkept).bind_true
  apply (carried.bind (q := True) ?_).congr (by simp)
  apply (noted _ Level.noConfusion).bind_true
  apply (noted _ Level.noConfusion).bind_true
  exact .pure _

end Step
end Matching
end Lineage
