/-
# Carrying ranges over

Carrying the ranges of fragments over to a new revision is steady work: what it
answered in the middle of a step it answers again at the end of it. Changes that
add a file have no old file that a range could lie in, so they have no part in it.

Matching a step carries ranges over and does nothing else with files: it is made of asking
for the diffs of the step's changes and of reading their files (`Matching.modular_ofLists`).
A matcher goes on from the targets of a step that is matched, and one that fails leaves it
as it was (`Matcher.run_map_eq_ok`, `Matcher.run_map_eq_error`).

Key theorems: `Matching.steady_carry`, `Matching.carry_withoutAdditions`,
`Matching.answer_carryAll`, `Matching.modular_ofLists`, `Matcher.run_map_eq_ok`,
`Matcher.run_map_eq_error`.
-/
import Lineage.Matcher
import Lineage.Proofs.Archive.Consulting

namespace Lineage
namespace Matching

/-! ### Changes that add a file -/

theorem kind_eq_add_iff {c : Change} {kind : Change.Kind} (h : c.kind = .ok kind) :
    kind = .add ↔ c.old = none := by
  unfold Change.kind at h
  cases ho : c.old with
  | none =>
    rw [ho] at h
    cases hn : c.new with
    | none =>
      rw [hn] at h
      cases h
    | some new =>
      rw [hn] at h
      exact iff_of_true (Except.ok.inj h).symm rfl
  | some old =>
    rw [ho] at h
    refine iff_of_false ?_ (Option.some_ne_none old)
    cases hn : c.new with
    | none =>
      rw [hn] at h
      rw [← Except.ok.inj h]
      exact Change.Kind.noConfusion
    | some new =>
      rw [hn] at h
      rw [← Except.ok.inj h]
      split <;> exact Change.Kind.noConfusion

theorem withoutAdditions_eq : ∀ {changes kept : List Change},
    withoutAdditions changes = .ok kept → kept = changes.filter fun c => c.old.isSome
  | [], kept, h => by
    cases h
    rfl
  | c :: cs, kept, h => by
    unfold withoutAdditions at h
    cases hk : c.kind with
    | error e =>
      rw [hk] at h
      cases h
    | ok kind =>
      cases hr : withoutAdditions cs with
      | error e =>
        rw [hk, hr] at h
        cases h
      | ok rest =>
        rw [hk, hr] at h
        have ih := withoutAdditions_eq hr
        have taken : (if kind = .add then rest else c :: rest) = kept := Except.ok.inj h
        rw [← taken, List.filter_cons]
        by_cases add : kind = .add
        · have noOld := (kind_eq_add_iff hk).mp add
          rw [if_pos add, noOld, ih]
          rfl
        · have old := Option.isSome_iff_ne_none.mpr fun none => add ((kind_eq_add_iff hk).mpr none)
          rw [if_neg add, if_pos old, ih]

/-- No range lies in the old file of a change that adds one. -/
theorem changesOf_filter (changes : List Change) (r : Range) :
    changesOf (changes.filter fun c => c.old.isSome) r = changesOf changes r := by
  unfold changesOf
  rw [List.filter_filter]
  congr 1
  funext c
  cases c.old <;> simp

section Congr

variable {changes changes' : List Change}

theorem carryRanges_congr : ∀ {rs : List Range},
    (∀ r ∈ rs, changesOf changes r = changesOf changes' r) →
      carryRanges changes rs = carryRanges changes' rs
  | [], _ => rfl
  | r :: rs, h => by
    have rest := carryRanges_congr fun s hs => h s (List.mem_cons_of_mem r hs)
    unfold carryRanges
    rw [h r List.mem_cons_self, rest]

theorem carry_congr {f : Fragment}
    (h : ∀ r ∈ f.ranges, changesOf changes r = changesOf changes' r) :
    carry changes f = carry changes' f := by
  unfold carry
  rw [carryRanges_congr h]

theorem carryAll_congr : ∀ {fs : List (Fragment × Nat)},
    (∀ f ∈ fs, ∀ r ∈ f.1.ranges, changesOf changes r = changesOf changes' r) →
      carryAll changes fs = carryAll changes' fs
  | [], _ => rfl
  | f :: fs, h => by
    have rest := carryAll_congr fun g hg => h g (List.mem_cons_of_mem f hg)
    unfold carryAll
    rw [carry_congr (h f List.mem_cons_self), rest]

end Congr

theorem changesOf_withoutAdditions {changes kept : List Change}
    (h : withoutAdditions changes = .ok kept) (r : Range) :
    changesOf kept r = changesOf changes r := by
  rw [withoutAdditions_eq h, changesOf_filter]

/-- Leaving out the changes that add a file makes no difference to what is carried over. -/
theorem carry_withoutAdditions {changes kept : List Change}
    (h : withoutAdditions changes = .ok kept) (f : Fragment) : carry kept f = carry changes f :=
  carry_congr fun r _ => changesOf_withoutAdditions h r

/-! ### Work on the files of changes -/

section Modular

variable {P : ∀ α : Type, Work α → Prop} (hP : Work.Modular P)
include hP

theorem modular_translateBy (r : Range) : ∀ {changes : List Change},
    (∀ c ∈ changes, ∀ f ∈ c.files, P _ f.bytes) → (∀ c ∈ changes, P _ c.diff) →
      P _ (translateBy r changes)
  | [], _, _ => hP.pure _
  | c :: cs, bytes, diff => by
    have rest := modular_translateBy r (fun d hd => bytes d (List.mem_cons_of_mem c hd))
      fun d hd => diff d (List.mem_cons_of_mem c hd)
    unfold translateBy
    apply hP.bind
      (r.modular_translate hP (bytes c List.mem_cons_self) (diff c List.mem_cons_self))
    intro moved
    cases moved with
    | some moved => exact hP.bind rest fun _ => hP.pure _
    | none =>
      exact hP.bind (hP.lift _) fun _ => hP.bind (hP.note _ Level.noConfusion) fun _ => rest

variable {changes : List Change} (bytes : ∀ c ∈ changes, ∀ f ∈ c.files, P _ f.bytes)
  (diff : ∀ c ∈ changes, P _ c.diff)
include bytes diff

theorem modular_carryRanges : ∀ rs : List Range, P _ (carryRanges changes rs)
  | [] => hP.pure _
  | r :: rs => by
    have rest := modular_carryRanges rs
    have translated : P _ (translateBy r (changesOf changes r)) :=
      modular_translateBy hP r (fun c hc => bytes c (List.mem_filter.mp hc).1)
        fun c hc => diff c (List.mem_filter.mp hc).1
    unfold carryRanges
    split
    · exact hP.bind (hP.pure _) fun _ => hP.bind rest fun _ => hP.pure _
    next eq =>
      rw [eq] at translated
      exact hP.bind translated fun _ => hP.bind rest fun _ => hP.pure _

theorem modular_carry (f : Fragment) : P _ (carry changes f) :=
  hP.bind (modular_carryRanges hP bytes diff f.ranges) fun _ => hP.pure _

theorem modular_carryAll : ∀ fs : List (Fragment × Nat), P _ (carryAll changes fs)
  | [] => hP.pure _
  | f :: fs => by
    have rest := modular_carryAll fs
    unfold carryAll
    exact hP.bind (modular_carry hP bytes diff f.1) fun _ => hP.bind rest fun _ => hP.pure _

omit bytes diff

/-- To match a step is to read the files of its changes and to ask for their diffs. -/
theorem modular_ofStep (sources targets : List Fragment) {step : Step}
    (bytes : ∀ c ∈ step.changes, ∀ f ∈ c.files, P _ f.bytes)
    (diff : ∀ c ∈ step.changes, P _ c.diff) : P _ (ofStep sources targets step) := by
  unfold ofStep
  apply hP.bind (hP.lift _)
  intro _
  dsimp only
  apply hP.bind (hP.note _ Level.noConfusion)
  intro _
  cases hk : withoutAdditions step.changes with
  | error e => exact hP.throw e
  | ok kept =>
    have among : ∀ c ∈ kept, c ∈ step.changes := by
      intro c hc
      rw [withoutAdditions_eq hk] at hc
      exact (List.mem_filter.mp hc).1
    have carried := modular_carryAll hP (fun c hc => bytes c (among c hc))
      (fun c hc => diff c (among c hc)) (bySignature sources.zipIdx targets.zipIdx).unpaired
    apply hP.bind carried
    intro _
    apply hP.bind (hP.note _ Level.noConfusion)
    intro _
    exact hP.bind (hP.note _ Level.noConfusion) fun _ => hP.pure _

end Modular

theorem steady_carry (changes : List Change) (f : Fragment) : (carry changes f).Steady :=
  modular_carry Work.Steady.modular (fun _ _ f _ => f.reads_bytes.toSteady)
    (fun c _ => c.steady_diff) f

theorem steady_carryAll (changes : List Change) (fs : List (Fragment × Nat)) :
    (carryAll changes fs).Steady :=
  modular_carryAll Work.Steady.modular (fun _ _ f _ => f.reads_bytes.toSteady)
    (fun c _ => c.steady_diff) fs

/-- Carrying several fragments gives each with its own carried ranges. -/
theorem answer_carryAll (changes : List Change) : ∀ {fs : List (Fragment × Nat)}
    {carried : List ((Fragment × Nat) × List Range)} {a : Archive},
    (carryAll changes fs).answer a = .ok carried →
      carried.map Prod.fst = fs ∧
        ∀ f ∈ carried, (carry changes f.1.1).Settled ((carryAll changes fs).after a) f.2
  | [], carried, a, h => by
    cases h
    exact ⟨rfl, by simp⟩
  | f :: fs, carried, a, h => by
    unfold carryAll at h ⊢
    obtain ⟨ranges, hr, h⟩ := Work.exists_of_answer_bind h
    obtain ⟨others, ho, h⟩ := Work.exists_of_answer_bind h
    cases h
    obtain ⟨firsts, settled⟩ := answer_carryAll changes ho
    rw [Work.after_bind_ok hr, Work.after_bind_ok ho]
    refine ⟨by rw [List.map_cons, firsts], fun g hg => ?_⟩
    rcases List.mem_cons.mp hg with rfl | hg
    · exact ((steady_carry changes f.1).settled hr).mono ((steady_carryAll changes fs).keeps _)
    · exact settled g hg

theorem modular_ofLists {P : ∀ α : Type, Work α → Prop} (hP : Work.Modular P)
    (sources targets : List (Option Fragment)) {step : Step}
    (bytes : ∀ c ∈ step.changes, ∀ f ∈ c.files, P _ f.bytes)
    (diff : ∀ c ∈ step.changes, P _ c.diff) : P _ (ofLists sources targets step) :=
  modular_ofStep hP _ _ bytes diff

/-- Matching a step is work within the scope of its changes. -/
theorem consults_ofLists {o : Scope} {base : Archive} (sources targets : List (Option Fragment))
    {step : Step} (within : ∀ c ∈ step.changes, o.change c) :
    (ofLists sources targets step).Consults o base :=
  modular_ofLists (Work.Consults.modular o base) sources targets
    (fun c hc => Change.consults_files (within c hc)) fun c hc => Change.consults_diff (within c hc)

theorem ignoresLog_ofLists (sources targets : List (Option Fragment)) (step : Step) :
    (ofLists sources targets step).IgnoresLog :=
  modular_ofLists Work.IgnoresLog.modular sources targets
    (fun _ _ f _ => f.ignoresLog_bytes) fun c _ => c.ignoresLog_diff

end Matching

/-! ### The matcher that a step leaves behind -/

namespace Matcher

variable {matcher next : Matcher} {sources targets : List (Option Fragment)} {step : Step}
  {m : Matching} {a b : Archive} {e : Fault}

theorem run_map (matcher : Matcher) (sources targets : List (Option Fragment)) (step : Step)
    (a : Archive) : (matcher.map sources targets step).run a =
      match (Matching.ofLists sources targets step).run a with
      | (.ok m, b) => ((.ok m, ⟨Fragment.distinct targets⟩), b)
      | (.error e, b) => ((.error e, matcher), b) := by
  unfold map
  generalize Matching.ofLists sources targets step = w
  rcases run : w.run a with ⟨answer | answer, after⟩ <;>
    rw [StateT.run_bind, show w.run.run a = _ from run] <;> rfl

theorem run_map_eq {answer : Except Fault Matching} :
    (matcher.map sources targets step).run a = ((answer, next), b) ↔
      (Matching.ofLists sources targets step).run a = (answer, b) ∧
        next = match answer with
          | .ok _ => ⟨Fragment.distinct targets⟩
          | .error _ => matcher := by
  rw [run_map]
  rcases (Matching.ofLists sources targets step).run a with ⟨m | e, after⟩
  all_goals
    constructor
    · rintro ⟨⟩
      exact ⟨rfl, rfl⟩
    · rintro ⟨⟨⟩, rfl⟩
      rfl

/-- A matcher that matches a step goes on from its targets. -/
theorem run_map_eq_ok : (matcher.map sources targets step).run a = ((.ok m, next), b) ↔
    (Matching.ofLists sources targets step).run a = (.ok m, b) ∧
      next = ⟨Fragment.distinct targets⟩ :=
  run_map_eq

/-- A matcher that fails to match a step is left as it was. -/
theorem run_map_eq_error : (matcher.map sources targets step).run a = ((.error e, next), b) ↔
    (Matching.ofLists sources targets step).run a = (.error e, b) ∧ next = matcher :=
  run_map_eq

theorem answer_map (matcher : Matcher) (sources targets : List (Option Fragment)) (step : Step)
    (a : Archive) : ((matcher.map sources targets step).run a).1.1 =
      (Matching.ofLists sources targets step).answer a := by
  rw [run_map, Work.answer]
  rcases (Matching.ofLists sources targets step).run a with ⟨answer | answer, after⟩ <;> rfl

end Matcher
end Lineage
